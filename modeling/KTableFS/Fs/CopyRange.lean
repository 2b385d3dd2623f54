/-
# Fs.CopyRange -- copying a range from file to file

`KTableFS::CopyFileRange` lets `fuse_buf_copy` move the bytes between the extents of
`ReadBuf` and `WriteBuf`.  The two sides are split at the end of the block at different
places, so the copy goes on in up to three pieces.

* `copyLoop_eq`: whole extents that the destination does not overlap are copied in full,
  wherever the two vectors are split;
* `copyRange_eq_write`: then the copy is the `Write` of the source's bytes;
* `copy_exact`: what the request does, after any run of requests.
-/
import KTableFS.Fs.Sizes
import KTableFS.Fs.ZeroCopy

namespace KTableFS.Fs

open KTableFS.Theory
open KTableFS.Kvengine (Slice Store)

set_option autoImplicit false

/-! ## Descriptors -/

namespace FileData

/-- The file behind a descriptor. -/
def fdFile (d : FileData) : Fd → ByteFile
  | .aggr i => d.aggrFiles.getD i .empty
  | .large ino => d.largeFile ino

theorem preadFd_eq (d : FileData) (fd : Fd) (size pos : Nat) :
    d.preadFd fd size pos = (d.fdFile fd).pread size pos := by
  cases fd <;> rfl

/-- A descriptor that has been opened. -/
def IsOpen (d : FileData) : Fd → Prop
  | .aggr i => i < d.aggrFiles.length
  | .large ino => (d.largeFiles ino).isSome

theorem isOpen_pwriteFd {d : FileData} {fd fd' : Fd} (isOpen : d.IsOpen fd) (data : Slice) (pos : Nat) :
    (d.pwriteFd fd' data pos).IsOpen fd := by
  cases fd with
  | aggr i =>
      cases fd' with
      | aggr j => simpa [IsOpen, pwriteFd] using isOpen
      | large ino => exact isOpen
  | large ino =>
      cases fd' with
      | aggr j => exact isOpen
      | large ino' =>
          simp only [IsOpen, pwriteFd, Function.update_apply]
          split
          · rfl
          · exact isOpen

theorem fdFile_pwriteFd {d : FileData} {fd : Fd} (isOpen : d.IsOpen fd) (data : Slice) (pos : Nat) :
    (d.pwriteFd fd data pos).fdFile fd = (d.fdFile fd).pwrite data pos := by
  cases fd with
  | aggr i =>
      have inRange : i < d.aggrFiles.length := isOpen
      simp [fdFile, pwriteFd, List.getD_eq_getElem?_getD, inRange]
  | large ino => simp [fdFile, pwriteFd, largeFile]

theorem fdFile_pwriteFd_other {d : FileData} {fd fd' : Fd} (differ : fd ≠ fd') (data : Slice) (pos : Nat) :
    (d.pwriteFd fd' data pos).fdFile fd = d.fdFile fd := by
  cases fd with
  | aggr i =>
      cases fd' with
      | aggr j =>
          have other : j ≠ i := fun same => differ (by rw [same])
          simp [fdFile, pwriteFd, List.getD_eq_getElem?_getD, other]
      | large ino => rfl
  | large ino =>
      cases fd' with
      | aggr j => rfl
      | large ino' =>
          have other : ino ≠ ino' := fun same => differ (by rw [same])
          simp [fdFile, pwriteFd, largeFile, Function.update_of_ne other]

/-- Nothing is written by a transfer of no bytes. -/
theorem pwriteFd_nil {d : FileData} {fd : Fd} (isOpen : d.IsOpen fd) (pos : Nat) :
    d.pwriteFd fd [] pos = d := by
  cases fd with
  | aggr i =>
      simp only [pwriteFd, ByteFile.pwrite_nil]
      rw [show (fun file : ByteFile => file) = id from rfl, List.modify_id]
  | large ino =>
      obtain ⟨file, present⟩ := Option.isSome_iff_exists.mp (show (d.largeFiles ino).isSome from isOpen)
      simp only [pwriteFd, ByteFile.pwrite_nil, largeFile_of_some present]
      rw [← present, Function.update_eq_self]

/-- Two transfers one behind the other are one. -/
theorem pwriteFd_append (d : FileData) (fd : Fd) (data data' : Slice) (pos : Nat) :
    (d.pwriteFd fd data pos).pwriteFd fd data' (pos + data.length) = d.pwriteFd fd (data ++ data') pos := by
  have joined : ∀ file : ByteFile, (file.pwrite data pos).pwrite data' (pos + data.length) =
      file.pwrite (data ++ data') pos := by
    intro file
    apply ByteFile.eq_of
    · cases data with
      | nil => simp [ByteFile.pwrite]
      | cons b rest =>
          cases data' with
          | nil => simp [ByteFile.pwrite]
          | cons b' rest' =>
              simp only [ByteFile.pwrite, List.cons_append, reduceCtorEq, if_false, List.length_cons,
                List.length_append]
              omega
    · simp only [ByteFile.pwrite_byte, blit_append]
  cases fd with
  | aggr i =>
      simp only [pwriteFd, List.modify_modify_eq]
      congr 2
      funext file
      exact joined file
  | large ino =>
      simp only [pwriteFd, largeFile, Function.update_self, Option.getD_some, Function.update_idem, joined]

end FileData

/-! ## Extents -/

/-- Two extents have no byte in common. -/
def FuseBuf.Apart (a b : FuseBuf) : Prop :=
  a.fd ≠ b.fd ∨ a.pos + a.size ≤ b.pos ∨ b.pos + b.size ≤ a.pos

theorem FuseBuf.Apart.parts {a b a' b' : FuseBuf} (apart : a.Apart b) (fd : a'.fd = a.fd)
    (fd' : b'.fd = b.fd) (low : a.pos ≤ a'.pos) (high : a'.pos + a'.size ≤ a.pos + a.size)
    (low' : b.pos ≤ b'.pos) (high' : b'.pos + b'.size ≤ b.pos + b.size) : a'.Apart b' := by
  rcases apart with differ | range
  · rw [FuseBuf.Apart, fd, fd']
    exact Or.inl differ
  · right
    omega

/-- The number of bytes of a vector. -/
def bufSize (bufs : List FuseBuf) : Nat := (bufs.map FuseBuf.size).sum

theorem bufSize_advance {buf : FuseBuf} {len : Nat} (part : len ≤ buf.size) (bufs : List FuseBuf) :
    len + bufSize (buf.advance len bufs) = bufSize (buf :: bufs) := by
  unfold FuseBuf.advance
  split
  · simp only [bufSize, List.map_cons, List.sum_cons]
    omega
  · simp only [bufSize, List.map_cons, List.sum_cons]
    omega

theorem length_advance (buf : FuseBuf) (len : Nat) (bufs : List FuseBuf) :
    (buf.advance len bufs).length = bufs.length + if buf.size ≤ len then 0 else 1 := by
  unfold FuseBuf.advance
  split
  · rfl
  · rfl

/-- What holds of an extent and of its parts holds of what is left. -/
theorem mem_advance {P : FuseBuf → Prop} {buf : FuseBuf} {bufs : List FuseBuf} {len : Nat}
    (all : ∀ b ∈ buf :: bufs, P b) (part : len < buf.size → P ⟨buf.fd, buf.pos + len, buf.size - len⟩) :
    ∀ b ∈ buf.advance len bufs, P b := by
  intro b member
  unfold FuseBuf.advance at member
  split at member
  · exact all b (List.mem_cons_of_mem _ member)
  · rcases List.mem_cons.mp member with rfl | later
    · exact part (by omega)
    · exact all b (List.mem_cons_of_mem _ later)

namespace FileData

/-- The file has all bytes of the extent. -/
def Whole (d : FileData) (buf : FuseBuf) : Prop := buf.size = 0 ∨ buf.pos + buf.size ≤ (d.fdFile buf.fd).size

theorem Whole.pread {d : FileData} {buf : FuseBuf} (whole : d.Whole buf) {len : Nat} (part : len ≤ buf.size) :
    d.preadFd buf.fd len buf.pos = cut (d.fdFile buf.fd).byte buf.pos len := by
  rw [preadFd_eq]
  have full : (d.fdFile buf.fd).preadCount len buf.pos = len := by
    rw [ByteFile.preadCount_eq_iff]
    unfold Whole at whole
    omega
  rw [ByteFile.pread, full]

/-- The bytes of whole extents. -/
def bytesOf (d : FileData) (bufs : List FuseBuf) : Slice :=
  bufs.flatMap fun buf => cut (d.fdFile buf.fd).byte buf.pos buf.size

theorem bytesOf_advance (d : FileData) {buf : FuseBuf} {len : Nat} (part : len ≤ buf.size)
    (bufs : List FuseBuf) : cut (d.fdFile buf.fd).byte buf.pos len ++ d.bytesOf (buf.advance len bufs) =
      d.bytesOf (buf :: bufs) := by
  unfold FuseBuf.advance bytesOf
  split
  · rw [List.flatMap_cons, show len = buf.size by omega]
  · rw [List.flatMap_cons, List.flatMap_cons, ← List.append_assoc, ← cut_add,
      Nat.add_sub_cancel' part]

/-- A transfer leaves the extents it does not overlap. -/
theorem bytes_pwriteFd {d : FileData} {buf : FuseBuf} {fd : Fd} {data : Slice} {pos : Nat}
    (isOpen : d.IsOpen fd) (apart : buf.Apart ⟨fd, pos, data.length⟩) (whole : d.Whole buf) :
    (d.pwriteFd fd data pos).Whole buf ∧
      cut ((d.pwriteFd fd data pos).fdFile buf.fd).byte buf.pos buf.size =
        cut (d.fdFile buf.fd).byte buf.pos buf.size := by
  by_cases same : buf.fd = fd
  · have range : buf.pos + buf.size ≤ pos ∨ pos + data.length ≤ buf.pos := by
      rcases apart with differ | range
      · exact absurd same differ
      · exact range
    subst same
    rw [Whole, fdFile_pwriteFd isOpen]
    constructor
    · have grown := ByteFile.size_le_pwrite (d.fdFile buf.fd) data pos
      unfold Whole at whole
      omega
    · apply cut_congr
      intro i below
      rw [ByteFile.pwrite_byte]
      apply blit_outside
      omega
  · rw [Whole, fdFile_pwriteFd_other same]
    exact ⟨whole, rfl⟩

/-- Nothing is written by no bytes. -/
theorem bufCopy_nil {d : FileData} {bufs : List FuseBuf} (isOpen : ∀ b ∈ bufs, d.IsOpen b.fd) :
    d.bufCopy bufs [] = d := by
  induction bufs with
  | nil => rfl
  | cons buf rest ih =>
      rw [bufCopy, List.take_nil, List.drop_nil, pwriteFd_nil (isOpen buf (List.mem_cons_self ..))]
      exact ih fun b member => isOpen b (List.mem_cons_of_mem _ member)

/-- Bytes go to an extent in two parts as they go in one. -/
theorem bufCopy_advance (d : FileData) {dst : FuseBuf} (dsts : List FuseBuf) {data : Slice}
    (part : data.length ≤ dst.size) (rest : Slice) :
    (d.pwriteFd dst.fd data dst.pos).bufCopy (dst.advance data.length dsts) rest =
      d.bufCopy (dst :: dsts) (data ++ rest) := by
  unfold FuseBuf.advance
  split
  · have whole : data.length = dst.size := by omega
    rw [bufCopy, ← whole, List.take_left, List.drop_left]
  · rw [bufCopy, bufCopy, pwriteFd_append, List.take_append, List.drop_append,
      List.take_of_length_le part, List.drop_of_length_le part, List.nil_append]

/-- **`fuse_buf_copy` of whole extents**: wherever the two vectors are split, the bytes of
the source go to the destination. -/
theorem copyLoop_eq : ∀ {turns : Nat} {d : FileData} {srcs dsts : List FuseBuf},
    srcs.length + dsts.length ≤ turns → bufSize srcs = bufSize dsts →
    (∀ dst ∈ dsts, d.IsOpen dst.fd) → (∀ src ∈ srcs, d.Whole src) →
    (∀ src ∈ srcs, ∀ dst ∈ dsts, src.Apart dst) →
      copyLoop turns d srcs dsts = (d.bufCopy dsts (d.bytesOf srcs), bufSize srcs) := by
  intro turns
  induction turns with
  | zero =>
      intro d srcs dsts enough _ _ _ _
      have none' : srcs = [] ∧ dsts = [] := by
        rw [← List.length_eq_zero_iff, ← List.length_eq_zero_iff]
        omega
      rw [none'.1, none'.2]
      rfl
  | succ turns ih =>
      intro d srcs dsts enough same isOpen whole apart
      cases srcs with
      | nil => rw [copyLoop.eq_def, show d.bytesOf [] = [] from rfl, bufCopy_nil isOpen, bufSize]; rfl
      | cons src srcs =>
          cases dsts with
          | nil => rw [copyLoop.eq_def, bufCopy, same]; rfl
          | cons dst dsts =>
              have inSrc : min src.size dst.size ≤ src.size := Nat.min_le_left ..
              have inDst : min src.size dst.size ≤ dst.size := Nat.min_le_right ..
              generalize isLen : min src.size dst.size = len at inSrc inDst
              have wholeSrc := whole src (List.mem_cons_self ..)
              have openDst := isOpen dst (List.mem_cons_self ..)
              have bytes := wholeSrc.pread inSrc
              have count : (cut (d.fdFile src.fd).byte src.pos len).length = len := length_cut ..
              -- what is left to be read is not overwritten
              have left : ∀ b ∈ src.advance len srcs, d.Whole b ∧
                  ∀ dst' ∈ dst :: dsts, b.Apart dst' := by
                refine mem_advance (fun b member => ⟨whole b member, apart b member⟩) fun more => ⟨?_, ?_⟩
                · unfold Whole at wholeSrc ⊢
                  dsimp only
                  omega
                · intro dst' member
                  exact (apart src (List.mem_cons_self ..) dst' member).parts rfl rfl
                    (Nat.le_add_right ..) (by dsimp only; omega) le_rfl le_rfl
              have kept : ∀ b ∈ src.advance len srcs,
                  (d.pwriteFd dst.fd (cut (d.fdFile src.fd).byte src.pos len) dst.pos).Whole b ∧
                    cut ((d.pwriteFd dst.fd (cut (d.fdFile src.fd).byte src.pos len) dst.pos).fdFile
                      b.fd).byte b.pos b.size = cut (d.fdFile b.fd).byte b.pos b.size := by
                intro b member
                apply bytes_pwriteFd openDst _ (left b member).1
                exact ((left b member).2 dst (List.mem_cons_self ..)).parts rfl rfl le_rfl le_rfl le_rfl
                  (by dsimp only; omega)
              have turn := @ih (d.pwriteFd dst.fd (cut (d.fdFile src.fd).byte src.pos len) dst.pos)
                (src.advance len srcs) (dst.advance len dsts) ?_ ?_ ?_ (fun b member => (kept b member).1) ?_
              · have rest : (d.pwriteFd dst.fd (cut (d.fdFile src.fd).byte src.pos len) dst.pos).bytesOf
                    (src.advance len srcs) = d.bytesOf (src.advance len srcs) :=
                  List.flatMap_congr fun b member => (kept b member).2
                have joined := d.bufCopy_advance dsts (show _ ≤ dst.size from count.trans_le inDst)
                  (d.bytesOf (src.advance len srcs))
                rw [count, bytesOf_advance d inSrc] at joined
                simp only [copyLoop, isLen, bytes, count, lt_irrefl, if_false, turn, rest, joined,
                  bufSize_advance inSrc]
              · rw [length_advance, length_advance]
                simp only [List.length_cons] at enough
                split <;> split <;> omega
              · have one := bufSize_advance inSrc srcs
                have two := bufSize_advance inDst dsts
                omega
              · intro b member
                apply isOpen_pwriteFd
                revert b
                exact mem_advance isOpen fun _ => openDst
              · intro b member dst' member'
                have far := (left b member).2
                revert dst'
                refine mem_advance far fun more => ?_
                exact (far dst (List.mem_cons_self ..)).parts rfl rfl le_rfl le_rfl (Nat.le_add_right ..)
                  (by dsimp only; omega)

/-! ## The extents of a file -/

/-- The extent lies in the range of the file, in its block or in its large file. -/
def Within (d : FileData) (file : Extent) (size off : Nat) (buf : FuseBuf) : Prop :=
  (file.aggr.file ≠ 0 ∧ buf.fd = .aggr (file.aggr.file.toNat - 1) ∧ ∃ from', off ≤ from' ∧
      buf.pos = d.blockOff file from' ∧ from' + buf.size ≤ off + size ∧ from' + buf.size ≤ d.aggrBlockSize) ∨
    (buf.fd = .large file.stIno ∧ off ≤ d.aggrBlockSize + buf.pos ∧
      d.aggrBlockSize + buf.pos + buf.size ≤ off + size)

/-- Files with blocks and large files of their own, or separate ranges of one file. -/
def Separate (src dst : Extent) (size offIn offOut : Nat) : Prop :=
  (src.aggr ≠ dst.aggr ∧ src.stIno ≠ dst.stIno) ∨
    (src = dst ∧ (offIn + size ≤ offOut ∨ offOut + size ≤ offIn))

theorem Within.apart {d : FileData} {src dst : Extent} {size offIn offOut : Nat}
    (separate : Separate src dst size offIn offOut) {a b : FuseBuf} (within : d.Within src size offIn a)
    (within' : d.Within dst size offOut b) : a.Apart b := by
  rcases within with ⟨valid, fd, i, low, pos, high, inBlock⟩ | ⟨fd, low, high⟩
  · rcases within' with ⟨valid', fd', j, low', pos', high', inBlock'⟩ | ⟨fd', -, -⟩
    · rcases separate with ⟨blocks, -⟩ | ⟨rfl, ranges⟩
      · by_cases sameFile : src.aggr.file = dst.aggr.file
        · have differ := no_ne_of_file_eq blocks sameFile
          right
          rw [pos, pos', blockOff, blockOff]
          rcases Nat.lt_or_gt_of_ne differ with less | more
          · have := Nat.mul_le_mul_right d.aggrBlockSize (Nat.succ_le_of_lt less)
            rw [Nat.succ_mul] at this
            omega
          · have := Nat.mul_le_mul_right d.aggrBlockSize (Nat.succ_le_of_lt more)
            rw [Nat.succ_mul] at this
            omega
        · left
          rw [fd, fd']
          exact fun same => index_ne_of_file_ne valid valid' sameFile (Fd.aggr.inj same)
      · right
        rw [pos, pos', blockOff, blockOff]
        omega
    · left
      rw [fd, fd']
      exact fun same => by cases same
  · rcases within' with ⟨-, fd', -⟩ | ⟨fd', low', high'⟩
    · left
      rw [fd, fd']
      exact fun same => by cases same
    · rcases separate with ⟨-, inos⟩ | ⟨rfl, ranges⟩
      · left
        rw [fd, fd']
        exact fun same => inos (Fd.large.inj same)
      · right
        omega

theorem aggrFile_valid {d : FileData} {aggr : AggrT} {file : ByteFile} (present : d.aggrFile aggr = some file) :
    aggr.file ≠ 0 ∧ d.fdFile (.aggr (aggr.file.toNat - 1)) = file ∧ aggr.file.toNat - 1 < d.aggrFiles.length := by
  have located := aggrFiles_of_aggrFile present
  refine ⟨?_, ?_, (List.getElem?_eq_some_iff.mp located).1⟩
  · intro zero
    simp [aggrFile, zero] at present
  · rw [fdFile, List.getD_eq_getElem?_getD, located, Option.getD_some]

/-- **The source extents** of a range that the files reach: whole, and of its bytes. -/
theorem readBuf_extents {d : FileData} {src : Extent} {size off : Nat} (reaches : d.Reaches src size off) :
    ∃ srcs, d.readBuf src size off = some srcs ∧ bufSize srcs = size ∧
      (∀ b ∈ srcs, d.Whole b ∧ d.Within src size off b) ∧ d.bytesOf srcs = cut (d.fileByte src) off size := by
  unfold Reaches at reaches
  unfold readBuf
  split at reaches
  · next inside =>
      obtain ⟨some', enough⟩ := reaches
      obtain ⟨aggr, present⟩ := Option.isSome_iff_exists.mp some'
      obtain ⟨valid, isFile, -⟩ := aggrFile_valid present
      rw [blockFile_of_some present] at enough
      simp only [if_pos inside, present, Option.map_some]
      refine ⟨_, rfl, by simp [bufSize], ?_, ?_⟩
      · intro b member
        cases List.mem_singleton.mp member
        refine ⟨?_, Or.inl ⟨valid, rfl, off, le_rfl, rfl, le_rfl, by dsimp only; omega⟩⟩
        unfold Whole
        dsimp only
        rw [isFile]
        unfold blockOff at enough ⊢
        omega
      · simp only [bytesOf, List.flatMap_cons, List.flatMap_nil, List.append_nil, isFile]
        exact cut_congr (fileByte_block present inside)
  · next outside =>
      split at reaches
      · next behind =>
          simp only [if_neg outside, if_pos behind]
          have bytes := cut_congr (d.fileByte_large src behind size)
          cases present : d.largeFiles src.stIno with
          | none =>
              have nothing : size = 0 := by
                rw [largeFile, present] at reaches
                simp only [Option.getD_none, ByteFile.size_empty] at reaches
                omega
              subst nothing
              exact ⟨[], rfl, rfl, by simp, rfl⟩
          | some large =>
              refine ⟨_, rfl, by simp [bufSize], ?_, ?_⟩
              · intro b member
                cases List.mem_singleton.mp member
                refine ⟨?_, Or.inr ⟨rfl, by dsimp only; omega, by dsimp only; omega⟩⟩
                unfold Whole
                dsimp only [fdFile]
                omega
              · simpa [bytesOf, fdFile] using bytes
      · next before =>
          obtain ⟨some', blockEnd, largeEnd⟩ := reaches
          obtain ⟨aggr, present⟩ := Option.isSome_iff_exists.mp some'
          obtain ⟨valid, isFile, -⟩ := aggrFile_valid present
          rw [blockFile_of_some present] at blockEnd
          have present' : ∃ large, d.largeFiles src.stIno = some large := by
            cases found : d.largeFiles src.stIno with
            | some large => exact ⟨large, rfl⟩
            | none =>
                rw [largeFile, found] at largeEnd
                simp only [Option.getD_none, ByteFile.size_empty] at largeEnd
                omega
          obtain ⟨large, present'⟩ := present'
          simp only [if_neg outside, if_neg before, present, present', Option.map_some]
          refine ⟨_, rfl, ?_, ?_, ?_⟩
          · simp only [bufSize, List.map_cons, List.map_nil, List.sum_cons, List.sum_nil]
            omega
          · intro b member
            rcases List.mem_cons.mp member with rfl | member
            · refine ⟨?_, Or.inl ⟨valid, rfl, off, le_rfl, rfl, by dsimp only; omega, by dsimp only; omega⟩⟩
              unfold Whole
              dsimp only
              rw [isFile]
              unfold blockOff at blockEnd ⊢
              omega
            · cases List.mem_singleton.mp member
              refine ⟨?_, Or.inr ⟨rfl, by dsimp only; omega, by dsimp only; omega⟩⟩
              unfold Whole
              dsimp only [fdFile]
              omega
          · have first := cut_congr (fileByte_block present
              (show d.aggrBlockSize - off + off ≤ d.aggrBlockSize by omega))
            have second := cut_congr (d.fileByte_large src le_rfl (size - (d.aggrBlockSize - off)))
            simp only [Nat.sub_self] at second
            have whole := cut_add (d.fileByte src) off (d.aggrBlockSize - off)
              (size - (d.aggrBlockSize - off))
            rw [show d.aggrBlockSize - off + (size - (d.aggrBlockSize - off)) = size by omega,
              show off + (d.aggrBlockSize - off) = d.aggrBlockSize by omega] at whole
            simp only [bytesOf, List.flatMap_cons, List.flatMap_nil, List.append_nil, isFile]
            rw [whole, first, ← second]
            rfl

theorem fdFile_openLarge (d : FileData) (ino : Nat) (fd : Fd) : (d.openLarge ino).fdFile fd = d.fdFile fd := by
  cases fd with
  | aggr i => rfl
  | large other =>
      simp only [fdFile, openLarge, largeFile, Function.update_apply]
      split
      · next same => rw [same, Option.getD_some]
      · rfl

/-- **The destination extents**: open, within the range, and of the size asked for. -/
theorem writeBuf_extents {d d' : FileData} {dst : Extent} {size off : Nat} {dsts : List FuseBuf}
    (described : d.writeBuf dst size off = some (dsts, d')) :
    bufSize dsts = size ∧ (∀ b ∈ dsts, d'.IsOpen b.fd ∧ d.Within dst size off b) ∧
      d'.aggrBlockSize = d.aggrBlockSize ∧ ∀ fd, d'.fdFile fd = d.fdFile fd := by
  have isOpen : (d.openLarge dst.stIno).IsOpen (.large dst.stIno) := by simp [IsOpen, openLarge]
  unfold writeBuf at described
  split at described
  · next inside =>
      obtain ⟨aggr, present, same⟩ := Option.map_eq_some_iff.mp described
      cases same
      obtain ⟨valid, -, inRange⟩ := aggrFile_valid present
      refine ⟨by simp [bufSize], ?_, rfl, fun _ => rfl⟩
      intro b member
      cases List.mem_singleton.mp member
      exact ⟨inRange, Or.inl ⟨valid, rfl, off, le_rfl, rfl, le_rfl, by dsimp only; omega⟩⟩
  · next outside =>
      split at described
      · next behind =>
          cases described
          refine ⟨by simp [bufSize], ?_, rfl, d.fdFile_openLarge _⟩
          intro b member
          cases List.mem_singleton.mp member
          exact ⟨isOpen, Or.inr ⟨rfl, by dsimp only; omega, by dsimp only; omega⟩⟩
      · next before =>
          obtain ⟨aggr, present, same⟩ := Option.map_eq_some_iff.mp described
          cases same
          obtain ⟨valid, -, inRange⟩ := aggrFile_valid present
          refine ⟨?_, ?_, rfl, d.fdFile_openLarge _⟩
          · simp only [bufSize, List.map_cons, List.map_nil, List.sum_cons, List.sum_nil]
            omega
          · intro b member
            rcases List.mem_cons.mp member with rfl | member
            · exact ⟨inRange, Or.inl ⟨valid, rfl, off, le_rfl, rfl, by dsimp only; omega,
                by dsimp only; omega⟩⟩
            · cases List.mem_singleton.mp member
              exact ⟨isOpen, Or.inr ⟨rfl, by dsimp only; omega, by dsimp only; omega⟩⟩

/-- **A copy is the write of the source's bytes.** -/
theorem copyRange_eq_write {d : FileData} {src dst : Extent} {size offIn offOut : Nat}
    (reaches : d.Reaches src size offIn) (block : (d.aggrFile dst.aggr).isSome)
    (separate : Separate src dst size offIn offOut) :
    ∃ srcs dsts d' d'', d.readBuf src size offIn = some srcs ∧ d.writeBuf dst size offOut = some (dsts, d') ∧
      d.write dst (cut (d.fileByte src) offIn size) offOut = some d'' ∧ d'.bufCopyFd srcs dsts = (d'', size) := by
  obtain ⟨srcs, reads, total, whole, bytes⟩ := readBuf_extents reaches
  have described : ∃ dsts d', d.writeBuf dst size offOut = some (dsts, d') := by
    obtain ⟨aggr, present⟩ := Option.isSome_iff_exists.mp block
    unfold writeBuf
    simp only [present, Option.map_some]
    split
    · exact ⟨_, _, rfl⟩
    · split
      · exact ⟨_, _, rfl⟩
      · exact ⟨_, _, rfl⟩
  obtain ⟨dsts, d', writes⟩ := described
  obtain ⟨total', isOpen, -, same⟩ := writeBuf_extents writes
  have asWrite := bufWrite_eq_write d dst (cut (d.fileByte src) offIn size) offOut
  rw [length_cut, writes, Option.map_some] at asWrite
  refine ⟨srcs, dsts, d', _, reads, writes, asWrite.symm, ?_⟩
  have bytes' : d'.bytesOf srcs = cut (d.fileByte src) offIn size := by
    rw [← bytes]
    unfold bytesOf
    simp only [same]
  rw [bufCopyFd, copyLoop_eq le_rfl (total.trans total'.symm) (fun b member => (isOpen b member).1), bytes',
    total]
  · intro b member
    rw [Whole, same]
    exact (whole b member).1
  · intro b member b' member'
    exact (whole b member).2.apart separate (isOpen b' member').2

end FileData

/-! ## Bytes that have been written -/

namespace FileData

/-- The backing files do not shrink. -/
structure Grown (d d' : FileData) : Prop where
  aggrBlockSize : d'.aggrBlockSize = d.aggrBlockSize
  size : ∀ fd, (d.fdFile fd).size ≤ (d'.fdFile fd).size

theorem Grown.refl (d : FileData) : Grown d d := ⟨rfl, fun _ => le_rfl⟩

theorem Grown.trans {d d' d'' : FileData} (first : Grown d d') (second : Grown d' d'') : Grown d d'' :=
  ⟨second.aggrBlockSize.trans first.aggrBlockSize, fun fd => (first.size fd).trans (second.size fd)⟩

theorem grown_create (d : FileData) : Grown d d.create.2 := by
  unfold create
  split
  · exact ⟨rfl, fun _ => le_rfl⟩
  · simp only
    split
    · refine ⟨rfl, fun fd => ?_⟩
      cases fd with
      | large ino => exact le_rfl
      | aggr i =>
          simp only [fdFile, List.getD_eq_getElem?_getD, List.getElem?_append]
          split
          · exact le_rfl
          · next past => simp [List.getElem?_eq_none (Nat.le_of_not_lt past)]
    · exact ⟨rfl, fun _ => le_rfl⟩

theorem grown_pwriteFd (d : FileData) (fd : Fd) (data : Slice) (pos : Nat) :
    Grown d (d.pwriteFd fd data pos) := by
  refine ⟨by cases fd <;> rfl, fun other => ?_⟩
  by_cases same : other = fd
  · subst same
    by_cases isOpen : d.IsOpen other
    · rw [fdFile_pwriteFd isOpen]
      exact ByteFile.size_le_pwrite ..
    · cases other with
      | aggr i =>
          have past : d.aggrFiles.length ≤ i := Nat.le_of_not_lt isOpen
          simp [fdFile, List.getD_eq_getElem?_getD, List.getElem?_eq_none past]
      | large ino =>
          simp only [fdFile, pwriteFd, largeFile, Function.update_self, Option.getD_some]
          exact ByteFile.size_le_pwrite ..
  · rw [fdFile_pwriteFd_other same]

theorem grown_bufCopy (bufs : List FuseBuf) : ∀ (d : FileData) (data : Slice), Grown d (d.bufCopy bufs data) := by
  induction bufs with
  | nil => exact fun d _ => .refl d
  | cons buf rest ih => exact fun d data => (d.grown_pwriteFd ..).trans (ih _ _)

theorem grown_writeBuf {d d' : FileData} {file : Extent} {size off : Nat} {bufs : List FuseBuf}
    (described : d.writeBuf file size off = some (bufs, d')) : Grown d d' := by
  obtain ⟨-, -, blockSize, same⟩ := writeBuf_extents described
  exact ⟨blockSize, fun fd => (congrArg ByteFile.size (same fd)).ge⟩

/-- However a copy ends, it has written the bytes it counts, from the start on. -/
theorem copyLoop_writes : ∀ (turns : Nat) {d : FileData} (srcs : List FuseBuf) {dsts : List FuseBuf},
    (∀ dst ∈ dsts, d.IsOpen dst.fd) → ∃ data : Slice, data.length = (copyLoop turns d srcs dsts).2 ∧
      data.length ≤ bufSize dsts ∧ (copyLoop turns d srcs dsts).1 = d.bufCopy dsts data := by
  intro turns
  induction turns with
  | zero => exact fun _ _ isOpen => ⟨[], rfl, Nat.zero_le _, (bufCopy_nil isOpen).symm⟩
  | succ turns ih =>
      intro d srcs dsts isOpen
      cases srcs with
      | nil => exact ⟨[], rfl, Nat.zero_le _, (bufCopy_nil isOpen).symm⟩
      | cons src srcs =>
          cases dsts with
          | nil => exact ⟨[], rfl, Nat.zero_le _, rfl⟩
          | cons dst dsts =>
              have inDst : min src.size dst.size ≤ dst.size := Nat.min_le_right ..
              generalize isLen : min src.size dst.size = len at inDst
              have short : (d.preadFd src.fd len src.pos).length ≤ len := by
                rw [preadFd_eq, ByteFile.length_pread]
                exact Nat.min_le_left ..
              generalize isBytes : d.preadFd src.fd len src.pos = bytes at short
              have open' : ∀ b ∈ dst.advance len dsts, (d.pwriteFd dst.fd bytes dst.pos).IsOpen b.fd := by
                intro b member
                apply isOpen_pwriteFd
                revert b
                exact mem_advance isOpen fun _ => isOpen dst (List.mem_cons_self ..)
              simp only [copyLoop, isLen, isBytes]
              split
              · refine ⟨bytes, rfl, ?_, ?_⟩
                · simp only [bufSize, List.map_cons, List.sum_cons]
                  omega
                · rw [bufCopy, List.take_of_length_le (short.trans inDst),
                    List.drop_of_length_le (short.trans inDst), bufCopy_nil]
                  intro b member
                  exact isOpen_pwriteFd (isOpen b (List.mem_cons_of_mem _ member)) ..
              · next full =>
                  have count : bytes.length = len := by omega
                  obtain ⟨data, counted, fits, wrote⟩ := ih (src.advance len srcs) open'
                  have total := bufSize_advance inDst dsts
                  refine ⟨bytes ++ data, ?_, ?_, ?_⟩
                  · rw [List.length_append, counted, count]
                  · rw [List.length_append]
                    omega
                  · have joined := d.bufCopy_advance dsts (show bytes.length ≤ dst.size by omega) data
                    rw [count] at joined
                    rw [wrote, joined]

/-- The backing file has byte `i` of the file. -/
def Holds (d : FileData) (file : Extent) (i : Nat) : Prop :=
  if i < d.aggrBlockSize then
    (d.aggrFile file.aggr).isSome ∧ d.blockOff file i < (d.fdFile (.aggr (file.aggr.file.toNat - 1))).size
  else i - d.aggrBlockSize < (d.largeFile file.stIno).size

/-- A byte that is there stays. -/
theorem Holds.grown {d d' : FileData} (grown : Grown d d') {file : Extent} {i : Nat} (holds : d.Holds file i) :
    d'.Holds file i := by
  unfold Holds at holds ⊢
  rw [grown.aggrBlockSize]
  split at holds
  · next inBlock =>
      obtain ⟨some', below⟩ := holds
      obtain ⟨aggr, present⟩ := Option.isSome_iff_exists.mp some'
      obtain ⟨valid, -, -⟩ := aggrFile_valid present
      have more := grown.size (.aggr (file.aggr.file.toNat - 1))
      have below' : d'.blockOff file i < (d'.fdFile (.aggr (file.aggr.file.toNat - 1))).size := by
        simp only [blockOff, grown.aggrBlockSize] at below ⊢
        omega
      rw [if_pos inBlock]
      refine ⟨?_, below'⟩
      -- a file number past the end would have no bytes
      by_contra gone
      rw [aggrFile, if_neg valid, Option.isSome_iff_ne_none, ne_eq, Decidable.not_not] at gone
      rw [fdFile, List.getD_eq_getElem?_getD, gone] at below'
      exact absurd below' (Nat.not_lt_zero _)
  · next behind =>
      rw [if_neg behind]
      exact lt_of_lt_of_le holds (grown.size (.large file.stIno))

/-- The files reach the end of a range whose bytes are there. -/
theorem reaches_of_holds {d : FileData} {file : Extent} {size off : Nat} (block : (d.aggrFile file.aggr).isSome)
    (holds : ∀ i, off ≤ i → i < off + size → d.Holds file i) : d.Reaches file size off := by
  obtain ⟨aggr, present⟩ := Option.isSome_iff_exists.mp block
  obtain ⟨-, isFile, -⟩ := aggrFile_valid present
  have inBlock : ∀ i, off ≤ i → i < off + size → i < d.aggrBlockSize → d.blockOff file i < aggr.size := by
    intro i low high inBlock
    have here := holds i low high
    rw [Holds, if_pos inBlock, isFile] at here
    exact here.2
  have behind : ∀ i, off ≤ i → i < off + size → d.aggrBlockSize ≤ i →
      i - d.aggrBlockSize < (d.largeFile file.stIno).size := by
    intro i low high past
    have here := holds i low high
    rwa [Holds, if_neg (by omega)] at here
  unfold Reaches
  rw [blockFile_of_some present]
  split
  · refine ⟨block, ?_⟩
    by_cases empty : size = 0
    · exact Or.inl empty
    · have last := inBlock (off + size - 1) (by omega) (by omega) (by omega)
      unfold blockOff at last ⊢
      omega
  · split
    · by_cases empty : size = 0
      · exact Or.inl empty
      · have last := behind (off + size - 1) (by omega) (by omega) (by omega)
        omega
    · have last := inBlock (d.aggrBlockSize - 1) (by omega) (by omega) (by omega)
      have last' := behind (off + size - 1) (by omega) (by omega) (by omega)
      unfold blockOff at last ⊢
      exact ⟨block, by omega, by omega⟩

/-- A transfer leaves its bytes in the file. -/
theorem size_pwriteFd {d : FileData} {fd : Fd} (isOpen : d.IsOpen fd) {data : Slice} (pos : Nat) {i : Nat}
    (inside : i < data.length) : pos + i < ((d.pwriteFd fd data pos).fdFile fd).size := by
  have some' : data ≠ [] := by
    rintro rfl
    cases inside
  rw [fdFile_pwriteFd isOpen, ByteFile.pwrite_size _ some']
  omega

/-- **What is transferred is there**: a part of the range, from its start. -/
theorem holds_bufCopy {d d' : FileData} {file : Extent} {size off : Nat} {bufs : List FuseBuf}
    (described : d.writeBuf file size off = some (bufs, d')) {data : Slice} (part : data.length ≤ size)
    {i : Nat} (low : off ≤ i) (high : i < off + data.length) : (d'.bufCopy bufs data).Holds file i := by
  have blockSize := (grown_writeBuf described).aggrBlockSize
  have isBlock : ∀ {aggr : ByteFile} {e : FileData}, e.aggrFiles = d.aggrFiles →
      d.aggrFile file.aggr = some aggr → e.IsOpen (.aggr (file.aggr.file.toNat - 1)) ∧ file.aggr.file ≠ 0 := by
    intro aggr e same present
    obtain ⟨valid, -, inRange⟩ := aggrFile_valid present
    refine ⟨?_, valid⟩
    show _ < e.aggrFiles.length
    rw [same]
    exact inRange
  -- a byte of the block is there once the first extent is written
  have inBlock : ∀ {e e' : FileData} {bytes : Slice} {aggr : ByteFile}, e.aggrFiles = d.aggrFiles →
      e.aggrBlockSize = d.aggrBlockSize → d.aggrFile file.aggr = some aggr → i < d.aggrBlockSize →
      i - off < bytes.length →
      Grown (e.pwriteFd (.aggr (file.aggr.file.toNat - 1)) bytes (d.blockOff file off)) e' → e'.Holds file i := by
    intro e e' bytes aggr files same present inBlock inside grown
    obtain ⟨isOpen, valid⟩ := isBlock files present
    have there := size_pwriteFd isOpen (d.blockOff file off) inside
    have place : d.blockOff file off + (i - off) = e.blockOff file i := by
      simp only [blockOff, same]
      omega
    rw [place] at there
    refine Holds.grown grown ?_
    have size : (e.pwriteFd (.aggr (file.aggr.file.toNat - 1)) bytes (d.blockOff file off)).aggrBlockSize =
        d.aggrBlockSize := same
    rw [Holds, size, if_pos inBlock]
    refine ⟨?_, there⟩
    have bound : file.aggr.file.toNat - 1 < e.aggrFiles.length := isOpen
    simp [aggrFile, valid, pwriteFd, bound]
  -- a byte behind it once the last is
  have inLarge : ∀ {e : FileData} {bytes : Slice} {pos : Nat}, e.aggrBlockSize = d.aggrBlockSize →
      (e.largeFiles file.stIno).isSome → d.aggrBlockSize ≤ i → pos ≤ i - d.aggrBlockSize →
      i - d.aggrBlockSize - pos < bytes.length → (e.pwriteFd (.large file.stIno) bytes pos).Holds file i := by
    intro e bytes pos same present behind from' inside
    have there := size_pwriteFd (show e.IsOpen (.large file.stIno) from present) pos inside
    have size : (e.pwriteFd (.large file.stIno) bytes pos).aggrBlockSize = d.aggrBlockSize := same
    rw [Holds, size, if_neg (by omega)]
    rwa [Nat.add_sub_cancel' from'] at there
  unfold writeBuf at described
  split at described
  · next inside =>
      obtain ⟨aggr, present, same⟩ := Option.map_eq_some_iff.mp described
      cases same
      refine inBlock rfl rfl present (by omega) ?_ (.refl _)
      rw [List.length_take]
      dsimp only
      omega
  · next outside =>
      split at described
      · next behind =>
          cases described
          simp only [bufCopy]
          refine inLarge rfl (by simp [openLarge]) (by omega) (by omega) ?_
          rw [List.length_take]
          omega
      · next before =>
          obtain ⟨aggr, present, same⟩ := Option.map_eq_some_iff.mp described
          cases same
          simp only [bufCopy]
          by_cases block : i < d.aggrBlockSize
          · exact inBlock (e := d.openLarge file.stIno) rfl rfl present block
              (by rw [List.length_take]; omega) (grown_pwriteFd ..)
          · refine inLarge rfl ?_ (by omega) (Nat.zero_le _) ?_
            · simp [pwriteFd, openLarge]
            · rw [List.length_take, List.length_drop]
              omega

end FileData

/-! ## Handles that are alone -/

/-- The record stored for a file with one handle is the file of that handle. -/
def View.Synced (v : View) : Prop :=
  ∀ (addr : Nat) (handle : FileHandle), v.handles[addr]? = some handle →
    (∀ (other : Nat) (sibling : FileHandle), v.handles[other]? = some sibling →
      sibling.key = handle.key → other = addr) →
    ∃ value file, v.db[handle.key.toSlice]? = some value ∧ File.ofSlice value = some file ∧
      v.files[handle.file]? = some file

namespace View

variable {v v' : View}

/-- A handle to the stored file is added. -/
theorem Synced.opened (synced : v.Synced) {key : FileKey} {file : File} {value : Slice}
    (stored : v.db[key.toSlice]? = some value) (decoded : File.ofSlice value = some file) :
    Synced { v with files := v.files ++ [file], handles := v.handles ++ [⟨v.files.length, key⟩] } := by
  intro addr handle named alone
  rw [List.getElem?_append] at named
  split at named
  · next old =>
      have alone' : ∀ (other : Nat) (sibling : FileHandle), v.handles[other]? = some sibling →
          sibling.key = handle.key → other = addr := by
        intro other sibling found
        apply alone other sibling
        rw [List.getElem?_append_left (List.getElem?_eq_some_iff.mp found).1]
        exact found
      obtain ⟨value', file', stored', decoded', points⟩ := synced addr handle named alone'
      refine ⟨value', file', stored', decoded', ?_⟩
      rw [List.getElem?_append_left (List.getElem?_eq_some_iff.mp points).1]
      exact points
  · obtain ⟨bound, rfl⟩ := List.getElem?_eq_some_iff.mp named
    rw [List.getElem_singleton] at alone ⊢
    exact ⟨value, file, stored, decoded, List.getElem?_concat_length ..⟩

theorem Synced.change (synced : v.Synced) (sound : v.Sound) {ending : Option (Nat × Nat)}
    (change : v.Change ending v') : v'.Synced := by
  cases change with
  | idle => exact synced
  | @created key file value fresh empty encoded =>
      have stored : Synced { v with db := v.db.insert key.toSlice value } := by
        intro addr handle named alone
        obtain ⟨value', file', found, decoded, points⟩ := synced addr handle named alone
        refine ⟨value', file', ?_, decoded, points⟩
        -- the handle's key was stored before, so it is another one
        have other : handle.key.toSlice ≠ key.toSlice := by
          intro same
          rw [same, fresh] at found
          cases found
        show (v.db.insert key.toSlice value)[handle.key.toSlice]? = some value'
        rw [Store.getElem?_insert, if_neg other]
        exact found
      apply stored.opened
      · show (v.db.insert key.toSlice value)[key.toSlice]? = some value
        rw [Store.getElem?_insert, if_pos rfl]
      · exact File.ofSlice_toSlice encoded
  | opened stored decoded => exact synced.opened stored decoded
  | covered named points inside => exact synced
  | @grown addr ending handle file file' value named points behind size encoded =>
      intro other sibling found alone
      by_cases same : other = addr
      · subst same
        cases named.symm.trans found
        refine ⟨value, file', ?_, File.ofSlice_toSlice encoded, ?_⟩
        · show (v.db.insert handle.key.toSlice value)[handle.key.toSlice]? = some value
          rw [Store.getElem?_insert, if_pos rfl]
        · exact List.getElem?_set_self (List.getElem?_eq_some_iff.mp points).1
      · obtain ⟨value', copy, stored, decoded, points'⟩ := synced other sibling found alone
        have differ : sibling.key.toSlice ≠ handle.key.toSlice := by
          intro equal
          exact same (alone addr handle named (FileKey.toSlice_injective equal).symm).symm
        refine ⟨value', copy, ?_, decoded, ?_⟩
        · show (v.db.insert handle.key.toSlice value)[sibling.key.toSlice]? = some value'
          rw [Store.getElem?_insert, if_neg differ]
          exact stored
        · have := sound.owned other sibling found
          have := sound.owned addr handle named
          show (v.files.set handle.file file')[sibling.file]? = some copy
          rw [List.getElem?_set_ne (by omega)]
          exact points'

end View

/-! ## Requests -/

namespace FsState

variable {fs fs' : FsState} {reply : Reply}

theorem written_data {handle : FileHandle} {file : File} {count off : Nat} {now : UInt32}
    (taken : fs.written handle file count off now = some (fs', reply)) : fs'.fileData = fs.fileData := by
  unfold written at taken
  split at taken
  · cases taken
  · split at taken
    · simp only [Option.bind_eq_bind, Option.bind_eq_some_iff] at taken
      obtain ⟨value, -, ⟨data, res⟩, -, taken⟩ := taken
      simp only at taken
      split at taken
      · cases taken
        rfl
      · cases taken
        rfl
    · cases taken
      rfl

/-- The end of a write through a handle that is alone. -/
theorem written_eq {handle : FileHandle} {file : File} {count off : Nat} (now : UInt32) {value : Slice}
    (inRange : count + off < 2 ^ 63) (points : fs.files[handle.file]? = some file)
    (stored : fs.db[handle.key.toSlice]? = some value) (decoded : File.ofSlice value = some file) :
    ∃ fs', fs.written handle file count off now = some (fs', .write count) ∧
      fs'.fileData = fs.fileData ∧ ∃ file', fs'.files[handle.file]? = some file' ∧
        (∃ value', fs'.db[handle.key.toSlice]? = some value' ∧ File.ofSlice value' = some file') ∧
        file'.stSize.toNat = max file.stSize.toNat (count + off) := by
  unfold written
  rw [if_neg (by omega)]
  by_cases grows : file.stSize.toNat < count + off
  · rw [if_pos grows]
    obtain ⟨bytes, encoded⟩ := Option.isSome_iff_exists.mp (File.toSlice_isSome_of_ofSlice decoded)
    have encoded' : ∃ bytes', File.toSlice { file with stSize := .ofNat (count + off), mtime := now } =
        some bytes' := by
      unfold File.toSlice at encoded ⊢
      split at encoded
      · cases encoded
      · next plain => exact ⟨_, if_neg plain⟩
    obtain ⟨bytes', encoded'⟩ := encoded'
    have present : fs.db.contains handle.key.toSlice = true := by
      rw [Store.contains_iff]
      exact ⟨value, stored⟩
    simp only [Option.bind_eq_bind, encoded', Option.bind_some, Store.submit_update, present, if_true]
    refine ⟨_, rfl, rfl, _, List.getElem?_set_self (List.getElem?_eq_some_iff.mp points).1,
      ⟨bytes', ?_, File.ofSlice_toSlice encoded'⟩, ?_⟩
    · show (fs.db.insert handle.key.toSlice bytes')[handle.key.toSlice]? = some bytes'
      rw [Store.getElem?_insert, if_pos rfl]
    · show (UInt64.ofNat (count + off)).toNat = _
      rw [UInt64.toNat_ofNat']
      omega
  · rw [if_neg grows]
    exact ⟨fs, rfl, rfl, file, points, ⟨value, stored, decoded⟩, by omega⟩

theorem create_data {parent : FuseIno} {name : Slice} {mode now : UInt32}
    (taken : fs.create parent name mode now = some (fs', reply)) : fs.fileData.Grown fs'.fileData := by
  obtain ⟨parentHandle, parentFile, named, points⟩ := parent_of_create taken
  have grown : fs.fileData.Grown (fs.newFile File.regular mode now).2.fileData := by
    unfold newFile
    simp only
    split
    · exact .refl _
    · exact fs.fileData.grown_create
  rw [create_eq named points] at taken
  simp only [Option.some.injEq] at taken
  split at taken
  · cases taken
    exact grown
  · cases taken
    exact grown

theorem lookup_data {parent : FuseIno} {name : Slice} (unindexed : fs.openFile = [])
    (taken : fs.lookup parent name = some (fs', reply)) : fs'.fileData = fs.fileData := by
  have found : ∃ parentHandle parentFile, fs.handle parent = some parentHandle ∧
      fs.file parentHandle = some parentFile := by
    simp only [lookup, Option.bind_eq_bind, Option.bind_eq_some_iff] at taken
    obtain ⟨parentHandle, named, parentFile, points, -⟩ := taken
    exact ⟨parentHandle, parentFile, named, points⟩
  obtain ⟨parentHandle, parentFile, named, points⟩ := found
  rw [lookup_eq named points unindexed] at taken
  simp only at taken
  split at taken
  · cases taken
    rfl
  · obtain ⟨file, -, same⟩ := Option.map_eq_some_iff.mp taken
    cases same
    rfl

/-- A write through a handle: what it does to the files, and its end. -/
theorem write_eq_some {addr : Nat} {data : Slice} {off : Nat} {now : UInt32}
    (taken : fs.write (.handle addr) data off now = some (fs', reply)) :
    ∃ handle file fileData, fs.handles[addr]? = some handle ∧ fs.files[handle.file]? = some file ∧
      fs.fileData.write file.extent data off = some fileData ∧ fs'.fileData = fileData := by
  simp only [write, Option.bind_eq_bind, Option.bind_eq_some_iff] at taken
  obtain ⟨handle, named, file, points, fileData, wrote, taken⟩ := taken
  refine ⟨handle, file, fileData, named, points, wrote, ?_⟩
  split at taken
  · exact written_data taken
  · cases taken
    rfl

theorem writeBuf_eq_some {addr : Nat} {data : Slice} {off : Nat} {res : Int} {now : UInt32}
    (taken : fs.writeBuf (.handle addr) data off res now = some (fs', reply)) :
    ∃ handle file bufs fileData, fs.handles[addr]? = some handle ∧ fs.files[handle.file]? = some file ∧
      fs.fileData.writeBuf file.extent data.length off = some (bufs, fileData) ∧
      fs'.fileData = fileData.bufCopy bufs (data.take res.toNat) := by
  simp only [writeBuf, Option.bind_eq_bind, Option.bind_eq_some_iff] at taken
  obtain ⟨handle, named, file, points, ⟨bufs, fileData⟩, described, taken⟩ := taken
  refine ⟨handle, file, bufs, fileData, named, points, described, ?_⟩
  split at taken
  · cases taken
    rfl
  · exact written_data taken

theorem copyFileRange_eq_some {addrIn offIn addrOut offOut size : Nat} {now : UInt32}
    (taken : fs.copyFileRange (.handle addrIn) offIn (.handle addrOut) offOut size now = some (fs', reply)) :
    ∃ handle file srcs dsts fileData, fs.handles[addrOut]? = some handle ∧
      fs.files[handle.file]? = some file ∧
      fs.fileData.writeBuf file.extent size offOut = some (dsts, fileData) ∧
      written { fs with fileData := (fileData.bufCopyFd srcs dsts).1 } handle file
        (fileData.bufCopyFd srcs dsts).2 offOut now = some (fs', reply) := by
  simp only [copyFileRange, Option.bind_eq_bind, Option.bind_eq_some_iff] at taken
  obtain ⟨handleIn, -, handle, named, fileIn, -, file, points, srcs, -, ⟨dsts, fileData⟩, described,
    taken⟩ := taken
  exact ⟨handle, file, srcs, dsts, fileData, named, points, described, taken⟩

end FsState

/-! ## Runs with copies -/

/-- The requests of a session, and copies between handles. -/
inductive CopyAct where
  | act (a : Act)
  | copy (addrIn offIn addrOut offOut size : Nat) (now : UInt32)

/-- The handle, the offset and the number of bytes of a write. -/
def Act.wrote : Act → Option (Nat × Nat × Nat)
  | .write addr data off _ => some (addr, off, data.length)
  | .writeBuf addr data off res _ => some (addr, off, (data.take res.toNat).length)
  | _ => none

/-- A session, and the ranges its writes have written. -/
structure Copying where
  session : Session
  wrote : List (Extent × Nat × Nat)

namespace Copying

def new (stat : Stat) (slabSize : Nat) (now : UInt32) : Copying := ⟨.new stat slabSize now, []⟩

abbrev fs (s : Copying) : FsState := s.session.fs

/-- The file behind a handle. -/
def extentAt (s : Copying) (addr : Nat) : Option Extent :=
  s.fs.handles[addr]?.bind fun handle => s.fs.files[handle.file]?.map File.extent

def next (s : Copying) : CopyAct → Option (Copying × Reply)
  | .act a =>
      (s.session.next a).map fun out =>
        let range := a.wrote.bind fun range => (s.extentAt range.1).map fun file => (file, range.2)
        (⟨out.1, s.wrote ++ range.toList⟩, out.2)
  | .copy addrIn offIn addrOut offOut size now =>
      (s.fs.copyFileRange (.handle addrIn) offIn (.handle addrOut) offOut size now).map fun out =>
        let range := match out.2 with
          | .write count => (s.extentAt addrOut).map fun file => (file, offOut, count)
          | _ => none
        (⟨(s.session.note addrOut offOut out).1, s.wrote ++ range.toList⟩, out.2)

/-- What a run keeps. -/
structure Ok (s : Copying) : Prop where
  unindexed : s.fs.openFile = []
  sound : s.session.view.Sound
  synced : s.session.view.Synced
  wrote : ∀ range ∈ s.wrote, ∀ i, range.2.1 ≤ i → i < range.2.1 + range.2.2 → s.fs.fileData.Holds range.1 i

theorem new_ok (stat : Stat) (slabSize : Nat) (now : UInt32) : (new stat slabSize now).Ok := by
  refine ⟨rfl, Session.new_sound .., ?_, ?_⟩
  · intro addr handle named
    simp [new, Session.view, Session.new, FsState.new] at named
  · intro range member
    simp [new] at member

theorem extentAt_eq {s : Copying} {addr : Nat} {handle : FileHandle} {file : File}
    (named : s.fs.handles[addr]? = some handle) (points : s.fs.files[handle.file]? = some file) :
    s.extentAt addr = some file.extent := by
  rw [extentAt, named, Option.bind_some, points, Option.map_some]

/-- **One request of a session**: the files grow, and what it writes is there. -/
theorem data_of_act {s : Copying} {a : Act} {session : Session} {reply : Reply} (ok : s.Ok)
    (taken : s.session.next a = some (session, reply)) :
    s.fs.fileData.Grown session.fs.fileData ∧ ∀ addr off len, a.wrote = some (addr, off, len) →
      ∀ file, s.extentAt addr = some file → ∀ i, off ≤ i → i < off + len →
        session.fs.fileData.Holds file i := by
  have noted : ∀ (addr off : Nat) (out : FsState × Reply), (s.session.note addr off out).1.fs = out.1 := by
    intro addr off out
    unfold Session.note
    split
    · rfl
    · rfl
  have idle : ∀ {fs : FsState}, fs.fileData = s.fs.fileData → s.fs.fileData.Grown fs.fileData :=
    fun same => same ▸ .refl _
  cases a with
  | mknod parent name mode now =>
      simp only [Session.next, Option.map_eq_some_iff, Prod.mk.injEq] at taken
      obtain ⟨out, made, rfl, -⟩ := taken
      exact ⟨FsState.create_data made, by simp [Act.wrote]⟩
  | mkdir parent name mode now =>
      simp only [Session.next, Option.map_eq_some_iff, Prod.mk.injEq] at taken
      obtain ⟨out, made, rfl, -⟩ := taken
      exact ⟨FsState.create_data made, by simp [Act.wrote]⟩
  | lookup parent name =>
      simp only [Session.next, Option.map_eq_some_iff, Prod.mk.injEq] at taken
      obtain ⟨out, found, rfl, -⟩ := taken
      exact ⟨idle (FsState.lookup_data ok.unindexed found), by simp [Act.wrote]⟩
  | getAttr ino =>
      simp only [Session.next, FsState.getAttr, Option.bind_eq_bind, Option.map_eq_some_iff,
        Option.bind_eq_some_iff, Option.some.injEq, Prod.mk.injEq] at taken
      obtain ⟨_, ⟨_, -, _, -, rfl⟩, rfl, -⟩ := taken
      exact ⟨.refl _, by simp [Act.wrote]⟩
  | write addr data off now =>
      obtain ⟨out, wrote, note⟩ := Option.map_eq_some_iff.mp taken
      obtain ⟨handle, file, fileData, named, points, stored, same⟩ := FsState.write_eq_some wrote
      have isOut : session.fs = out.1 := by rw [← noted addr off out, note]
      rw [← FileData.bufWrite_eq_write, Option.map_eq_some_iff] at stored
      obtain ⟨⟨bufs, described⟩, isBuf, rfl⟩ := stored
      rw [isOut, same]
      refine ⟨(FileData.grown_writeBuf isBuf).trans (FileData.grown_bufCopy ..), ?_⟩
      intro addr' off' len range extent at' i low high
      simp only [Act.wrote, Option.some.injEq, Prod.mk.injEq] at range
      obtain ⟨rfl, rfl, rfl⟩ := range
      rw [extentAt_eq named points, Option.some.injEq] at at'
      subst at'
      exact FileData.holds_bufCopy isBuf le_rfl low high
  | writeBuf addr data off res now =>
      obtain ⟨out, wrote, note⟩ := Option.map_eq_some_iff.mp taken
      obtain ⟨handle, file, bufs, described, named, points, isBuf, same⟩ := FsState.writeBuf_eq_some wrote
      have isOut : session.fs = out.1 := by rw [← noted addr off out, note]
      rw [isOut, same]
      refine ⟨(FileData.grown_writeBuf isBuf).trans (FileData.grown_bufCopy ..), ?_⟩
      intro addr' off' len range extent at' i low high
      simp only [Act.wrote, Option.some.injEq, Prod.mk.injEq] at range
      obtain ⟨rfl, rfl, rfl⟩ := range
      rw [extentAt_eq named points, Option.some.injEq] at at'
      subst at'
      exact FileData.holds_bufCopy isBuf (List.length_take_le' ..) low high

/-- **One step of a run.** -/
theorem Ok.next {s s' : Copying} {a : CopyAct} {reply : Reply} (ok : s.Ok)
    (taken : s.next a = some (s', reply)) : s'.Ok := by
  cases a with
  | act a =>
      obtain ⟨⟨session, answer⟩, acted, same⟩ := Option.map_eq_some_iff.mp taken
      obtain ⟨grown, there⟩ := data_of_act ok acted
      obtain ⟨unindexed, change⟩ := Session.next_change ok.unindexed ok.sound acted
      cases same
      refine ⟨unindexed, ok.sound.change change, ok.synced.change ok.sound change, ?_⟩
      intro range member i low high
      rcases List.mem_append.mp member with old | new
      · exact (ok.wrote range old i low high).grown grown
      · simp only [Option.mem_toList, Option.bind_eq_some_iff, Option.map_eq_some_iff] at new
        obtain ⟨⟨addr, off, len⟩, wrote, file, at', rfl⟩ := new
        exact there addr off len wrote file at' i low high
  | copy addrIn offIn addrOut offOut size now =>
      obtain ⟨⟨fs', answer⟩, copied, same⟩ := Option.map_eq_some_iff.mp taken
      obtain ⟨handle, file, srcs, dsts, fileData, named, points, described, wrote⟩ :=
        FsState.copyFileRange_eq_some copied
      obtain ⟨total, isOpen, -, -⟩ := FileData.writeBuf_extents described
      obtain ⟨data, counted, fits, written⟩ :=
        FileData.copyLoop_writes (srcs.length + dsts.length) srcs
          fun b member => (isOpen b member).1
      have grown : s.fs.fileData.Grown (fileData.bufCopyFd srcs dsts).1 := by
        rw [FileData.bufCopyFd, written]
        exact (FileData.grown_writeBuf described).trans (FileData.grown_bufCopy ..)
      have keyed := ok.sound.keyed handle (List.mem_of_getElem? named)
      have isData := FsState.written_data wrote
      obtain ⟨isWrite, unindexed, change⟩ := FsState.written_change wrote named points keyed s.session.acked
      subst isWrite
      simp only [Session.note, named] at same
      cases same
      refine ⟨unindexed.trans ok.unindexed, ok.sound.change change, ok.synced.change ok.sound change, ?_⟩
      intro range member i low high
      rcases List.mem_append.mp member with old | new
      · show fs'.fileData.Holds range.1 i
        rw [isData]
        exact (ok.wrote range old i low high).grown grown
      · rw [extentAt_eq named points] at new
        simp only [Option.map_some, Option.toList_some, List.mem_singleton] at new
        subst new
        show fs'.fileData.Holds file.extent i
        rw [isData]
        dsimp only at low high ⊢
        rw [FileData.bufCopyFd] at high ⊢
        rw [written]
        exact FileData.holds_bufCopy described (fits.trans_eq total) low (by omega)

end Copying

/-- **Copying a range.**  After any run, a copy between two files, or between two ranges
of one file, whose source has been written and whose destination has no other handle
copies the whole range, changes no other byte and gives the destination its size. -/
theorem copy_exact (stat : Stat) (slabSize : Nat) (start : UInt32) {acts : List CopyAct} {s : Copying}
    {replies : List Reply} (ran : Run.run Copying.next (.new stat slabSize start) acts = some (s, replies))
    {addrIn addrOut : Nat} {handleIn handleOut : FileHandle} {fileIn fileOut : File}
    (namedIn : s.fs.handles[addrIn]? = some handleIn) (pointsIn : s.fs.files[handleIn.file]? = some fileIn)
    (namedOut : s.fs.handles[addrOut]? = some handleOut)
    (pointsOut : s.fs.files[handleOut.file]? = some fileOut)
    (alone : ∀ (other : Nat) (sibling : FileHandle), s.fs.handles[other]? = some sibling →
      sibling.key = handleOut.key → other = addrOut)
    (blockIn : (s.fs.fileData.aggrFile fileIn.aggr).isSome)
    (blockOut : (s.fs.fileData.aggrFile fileOut.aggr).isSome) {offIn offOut size : Nat}
    (separate : FileData.Separate fileIn.extent fileOut.extent size offIn offOut)
    (wrote : ∀ i, offIn ≤ i → i < offIn + size → ∃ range ∈ s.wrote,
      range.1 = fileIn.extent ∧ range.2.1 ≤ i ∧ i < range.2.1 + range.2.2)
    (inRange : offOut + size < 2 ^ 63) (now : UInt32) :
    ∃ fs', s.fs.copyFileRange (.handle addrIn) offIn (.handle addrOut) offOut size now =
        some (fs', .write size) ∧
      (∃ bytes, bytes.length = size ∧ s.fs.fileData.read fileIn.extent size offIn = some bytes ∧
        fs'.fileData.read fileOut.extent size offOut = some bytes) ∧
      (∀ i < size, fs'.fileData.fileByte fileOut.extent (offOut + i) =
        s.fs.fileData.fileByte fileIn.extent (offIn + i)) ∧
      (∀ i, i < offOut ∨ offOut + size ≤ i → fs'.fileData.fileByte fileOut.extent i =
        s.fs.fileData.fileByte fileOut.extent i) ∧
      (∀ other : Extent, other.aggr ≠ fileOut.aggr → other.stIno ≠ fileOut.extent.stIno →
        fs'.fileData.fileByte other = s.fs.fileData.fileByte other) ∧
      ∃ fileOut', fs'.files[handleOut.file]? = some fileOut' ∧
        (∃ value, fs'.db[handleOut.key.toSlice]? = some value ∧ File.ofSlice value = some fileOut') ∧
        fileOut'.stSize.toNat = max fileOut.stSize.toNat (offOut + size) := by
  have ok : s.Ok := Run.invariant (fun _ _ _ _ ok (_ : True) taken => ok.next taken) (Copying.new_ok ..)
    (Run.Along.of_forall fun _ _ => trivial) ran
  have reaches : s.fs.fileData.Reaches fileIn.extent size offIn := by
    apply FileData.reaches_of_holds blockIn
    intro i low high
    obtain ⟨range, member, same, low', high'⟩ := wrote i low high
    rw [← same]
    exact ok.wrote range member i low' high'
  obtain ⟨srcs, dsts, described, after, reads, writes, asWrite, copies⟩ :=
    FileData.copyRange_eq_write reaches blockOut separate
  obtain ⟨rewritten, content, blocks, larges⟩ := FileData.write_spec asWrite
  obtain ⟨value, record, stored, decoded, points⟩ := ok.synced addrOut handleOut namedOut alone
  cases points.symm.trans pointsOut
  obtain ⟨fs', ends, sameData, fileOut', points', stored', size'⟩ := @FsState.written_eq
    { s.fs with fileData := after } _ _ size offOut now _ (by omega) pointsOut stored decoded
  refine ⟨fs', ?_, ?_, ?_, ?_, ?_, fileOut', points', stored', by rw [size', Nat.add_comm]⟩
  · simp only [FsState.copyFileRange, FsState.handle, FsState.file, namedIn, namedOut, pointsIn, pointsOut, reads,
      writes, copies, Option.bind_eq_bind, Option.bind_some]
    exact ends
  · refine ⟨_, length_cut .., (FileData.read_eq_iff ..).mpr reaches, ?_⟩
    have kept : (after.aggrFile fileOut.aggr).isSome := by
      unfold FileData.aggrFile at blockOut ⊢
      split at blockOut
      · cases blockOut
      · next valid =>
          rw [isSome_getElem?] at blockOut
          rw [if_neg valid, isSome_getElem?, rewritten.aggrFiles]
          exact blockOut
    have there : after.Reaches fileOut.extent size offOut := by
      have asCopy := FileData.bufWrite_eq_write s.fs.fileData fileOut.extent
        (cut (s.fs.fileData.fileByte fileIn.extent) offIn size) offOut
      rw [asWrite, length_cut, writes, Option.map_some, Option.some.injEq] at asCopy
      apply FileData.reaches_of_holds kept
      intro i low high
      rw [← asCopy]
      exact FileData.holds_bufCopy writes (length_cut ..).le low (by rwa [length_cut])
    rw [sameData, (FileData.read_eq_iff ..).mpr there, content]
    have back := cut_blit (s.fs.fileData.fileByte fileOut.extent) offOut
      (cut (s.fs.fileData.fileByte fileIn.extent) offIn size)
    rw [length_cut] at back
    rw [back]
  · intro i below
    rw [sameData, content, blit_inside _ (Nat.le_add_right ..) (by rw [length_cut]; omega),
      Nat.add_sub_cancel_left, cut_getD _ below]
  · intro i outside
    rw [sameData, content]
    apply blit_outside
    rw [length_cut]
    exact outside
  · intro other aggr ino
    rw [sameData]
    funext i
    unfold FileData.fileByte
    rw [rewritten.aggrBlockSize]
    split
    · next inBlock => exact blocks other.aggr aggr i inBlock
    · rw [larges other.stIno ino]

/-- Twelve bytes of a file, of which eight are copied from its byte 3 to byte 6 of another:
with blocks of eight bytes, the copy goes on in three pieces. -/
theorem copy_exact_straddling :
    ∃ s replies, Run.run Copying.next (.new exampleStat 8 0)
      [.act (.mknod .root [97] 0x81a4 1), .act (.mknod .root [98] 0x81a4 2),
        .act (.write 0 [1, 2, 3, 4, 5, 6, 7, 8, 9, 10, 11, 12] 0 3)] = some (s, replies) ∧
      ∃ fs', s.fs.copyFileRange (.handle 0) 3 (.handle 1) 6 8 4 = some (fs', .write 8) ∧
        fs'.fileData.read ⟨3, ⟨1, 1⟩⟩ 8 6 = some [4, 5, 6, 7, 8, 9, 10, 11] := by
  have ends : (Run.run Copying.next (.new exampleStat 8 0)
      [.act (.mknod .root [97] 0x81a4 1), .act (.mknod .root [98] 0x81a4 2),
        .act (.write 0 [1, 2, 3, 4, 5, 6, 7, 8, 9, 10, 11, 12] 0 3)]).map (fun out =>
          (out.1.fs.handles, out.1.fs.files.map fun file => file.extent)) =
      some ([⟨1, .ofName 1 [97]⟩, ⟨2, .ofName 1 [98]⟩], [⟨1, ⟨0, 0⟩⟩, ⟨2, ⟨1, 0⟩⟩, ⟨3, ⟨1, 1⟩⟩]) := by
    decide +kernel
  have data : (Run.run Copying.next (.new exampleStat 8 0)
      [.act (.mknod .root [97] 0x81a4 1), .act (.mknod .root [98] 0x81a4 2),
        .act (.write 0 [1, 2, 3, 4, 5, 6, 7, 8, 9, 10, 11, 12] 0 3)]).map (fun out =>
          (out.1.wrote, out.1.fs.fileData.aggrFiles.length, out.1.fs.fileData.read ⟨2, ⟨1, 0⟩⟩ 8 3)) =
      some ([(⟨2, ⟨1, 0⟩⟩, 0, 12)], 1, some [4, 5, 6, 7, 8, 9, 10, 11]) := by
    decide +kernel
  obtain ⟨⟨s, replies⟩, ran, facts⟩ := Option.map_eq_some_iff.mp ends
  rw [ran, Option.map_some, Option.some.injEq] at data
  simp only [Prod.mk.injEq] at facts data
  obtain ⟨handles, files⟩ := facts
  obtain ⟨wrote, count, bytes⟩ := data
  have fileAt : ∀ (i : Nat) (extent : Extent), (s.fs.files.map fun file => file.extent)[i]? = some extent →
      ∃ file, s.fs.files[i]? = some file ∧ file.extent = extent := by
    intro i extent found
    rw [List.getElem?_map, Option.map_eq_some_iff] at found
    exact found
  obtain ⟨fileIn, pointsIn, isIn⟩ := fileAt 1 ⟨2, ⟨1, 0⟩⟩ (by rw [files]; rfl)
  obtain ⟨fileOut, pointsOut, isOut⟩ := fileAt 2 ⟨3, ⟨1, 1⟩⟩ (by rw [files]; rfl)
  have block : ∀ aggr : AggrT, aggr.file = 1 → (s.fs.fileData.aggrFile aggr).isSome := by
    intro aggr first
    simp [FileData.aggrFile, first, count]
  have blockIn : fileIn.aggr = ⟨1, 0⟩ := congrArg Extent.aggr isIn
  have blockOut : fileOut.aggr = ⟨1, 1⟩ := congrArg Extent.aggr isOut
  have alone : ∀ (other : Nat) (sibling : FileHandle), s.fs.handles[other]? = some sibling →
      sibling.key = .ofName 1 [98] → other = 1 := by
    rw [handles]
    intro other sibling named sameKey
    rcases other with _ | _ | other
    · cases named
      exact absurd sameKey (by decide)
    · rfl
    · cases named
  have separate : FileData.Separate fileIn.extent fileOut.extent 8 3 6 := by
    left
    rw [isIn, isOut]
    decide
  have covered : ∀ i, 3 ≤ i → i < 3 + 8 → ∃ range ∈ s.wrote,
      range.1 = fileIn.extent ∧ range.2.1 ≤ i ∧ i < range.2.1 + range.2.2 := by
    intro i low high
    refine ⟨(⟨2, ⟨1, 0⟩⟩, 0, 12), by rw [wrote]; exact List.mem_cons_self .., isIn.symm, ?_, ?_⟩
    · exact Nat.zero_le _
    · dsimp only
      omega
  have namedIn : s.fs.handles[0]? = some ⟨1, .ofName 1 [97]⟩ := by rw [handles]; rfl
  have namedOut : s.fs.handles[1]? = some ⟨2, .ofName 1 [98]⟩ := by rw [handles]; rfl
  obtain ⟨fs', copied, ⟨data, -, source, target⟩, -⟩ := copy_exact exampleStat 8 0 ran namedIn pointsIn
    namedOut pointsOut alone (block _ (by rw [blockIn])) (block _ (by rw [blockOut])) separate covered
    (by omega) 4
  rw [isIn, bytes, Option.some.injEq] at source
  rw [isOut, ← source] at target
  exact ⟨s, replies, ran, fs', copied, target⟩

end KTableFS.Fs
