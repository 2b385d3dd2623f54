/-
# Fs.ReadDir -- listing a directory in pages

A `ReadDir` request scans the keys of the directory.  `ReadDirScan` is called for
every entry, in one order over all workers: it counts them, skips those up to the
offset of the request, and stores the others in the buffer as long as they fit.  When
the scan is finished, `ReadDirCallback` replies with the buffer.

An entry that does not fit is meant to stop the scan.  It makes the worker finish the
batch, and so reply, but the worker's loop goes on and finishes the batch once more:
such a request is answered twice (`two_replies_of_overfull`).  So paging works in one
case only, when the first buffer holds the whole directory (`paged_iff`).

Of the key-value store it is assumed that a scan reads the same pairs on the same
workers every time (`Directory`); what becomes of them is `Kvengine.Scan`.  The size of
an entry in the buffer is up to libfuse and is a parameter.
-/
import KTableFS.Kvengine.Scan
import KTableFS.Fs.Requests

namespace KTableFS.Fs

open KTableFS.Theory
open KTableFS.Kvengine

set_option autoImplicit false

/-! ## The request -/

/-- An entry in the buffer; `attr` is missing for a record without a file. -/
structure Dirent where
  name : Slice
  attr : Option Attr
  off : Nat
  deriving DecidableEq, Repr

/-- What `ReadDirScan` and `ReadDirCallback` share: `*cur_off`, `*buf_size` and the
entries in `buf`. -/
structure DirBuf where
  curOff : Nat
  bufSize : Nat
  entries : List Dirent

/-- A mounted file system, the kind of the request and the size of an entry, by its
kind and name. -/
structure DirView where
  fs : FsState
  plus : Bool
  direntSize : Bool → Slice → Nat

namespace DirView

variable (view : DirView)

/-- The size `fuse_add_direntry` or `fuse_add_direntry_plus` returns. -/
def entsize (pair : Slice × Slice) : Nat :=
  view.direntSize view.plus (FileKey.ofSlice pair.1).name

def dirent (pair : Slice × Slice) (off : Nat) : Dirent where
  name := (FileKey.ofSlice pair.1).name
  attr := (File.ofSlice pair.2).map view.fs.fuseEntry
  off := off

/-- `ReadDirScan::operator()`. -/
def readDirScan (totalSize off : Nat) (dirBuf : DirBuf) (pair : Slice × Slice) : Bool × DirBuf :=
  let curOff := dirBuf.curOff + 1
  if curOff ≤ off then (true, { dirBuf with curOff })
  else
    let remain := totalSize - dirBuf.bufSize
    if remain < view.entsize pair then (false, { dirBuf with curOff })
    else
      (true,
        { curOff
          bufSize := dirBuf.bufSize + view.entsize pair
          entries := dirBuf.entries ++ [view.dirent pair curOff] })

/-- The answer to the last of the calls made so far, and the buffer behind it. -/
def calls (totalSize off : Nat) (delivered : List (Slice × Slice)) : Bool × DirBuf :=
  delivered.foldl (fun out pair => view.readDirScan totalSize off out.2 pair) (true, ⟨0, 0, []⟩)

def callback (totalSize off : Nat) : ScanCallback := fun delivered =>
  (view.calls totalSize off delivered).1

/-- The request of `KTableFS::ReadDir_`. -/
def readDirRequest (stIno : UInt64) (size off : Nat) : Request :=
  .scan (FileKey.toSlice ⟨stIno, 0, []⟩) (FileKey.toSlice ⟨stIno + 1, 0, []⟩)
    (view.callback size off) 0

/-- `ReadDirCallback::operator()`, once for every answer the batch gets. -/
def replies (size off : Nat) : List (Slice × Slice) → List Effect → List (List Dirent)
  | _, [] => []
  | seen, .scanned _ key value _ :: rest => replies size off (seen ++ [(key, value)]) rest
  | seen, .respond .. :: rest => (view.calls size off seen).2.entries :: replies size off seen rest
  | seen, .submit _ :: rest => replies size off seen rest

end DirView

/-- The pairs a scan of the directory reads, by worker. -/
structure Directory where
  stIno : UInt64
  shares : List (List (Slice × Slice))
  workers : shares ≠ []

namespace Directory

variable (view : DirView) (dir : Directory)

def pairs : List (Slice × Slice) := dir.shares.flatten

/-- The batch of `KTableFS::ReadDir_` as `DB::Submit` queues it: with a copy of the scan
for every worker but the first. -/
def submitted (size off : Nat) : Batch :=
  let req := view.readDirRequest dir.stIno size off
  ⟨0, req :: scanCopies dir.shares.length req, []⟩

/-- `KTableFS::ReadDir_`: the replies it leads to. -/
def readDir (size off : Nat) : List (List Dirent) :=
  view.replies size off []
    (scanShares (view.callback size off) dir.shares (dir.submitted view size off))

end Directory

/-! ## Paging -/

structure Call where
  off : Nat
  size : Nat
  replies : List (List Dirent)

/-- Where a client goes on: at the offset of the last entry of the first reply. -/
def resume (off : Nat) (replies : List (List Dirent)) : Nat :=
  match replies.head?.bind List.getLast? with
  | some dirent => dirent.off
  | none => off

/-- A sequence of calls with these buffer sizes. -/
def page (view : DirView) (dir : Directory) : Nat → List Nat → List Call
  | _, [] => []
  | off, size :: sizes =>
      let replies := dir.readDir view size off
      ⟨off, size, replies⟩ :: page view dir (resume off replies) sizes

namespace DirView

variable (view : DirView)

/-- The longest run of entries that fits. -/
def longest : Nat → List (Slice × Slice) → List (Slice × Slice)
  | _, [] => []
  | size, pair :: rest =>
      if view.entsize pair ≤ size then pair :: longest (size - view.entsize pair) rest else []

/-- The entries behind an offset. -/
def direntsFrom (off : Nat) (pairs : List (Slice × Slice)) : List Dirent :=
  pairs.mapIdx fun i pair => view.dirent pair (off + i + 1)

def totalSize (pairs : List (Slice × Slice)) : Nat := (pairs.map view.entsize).sum

end DirView

/-- Every call gets one reply, the longest run of the entries not listed yet, and the
replies before an empty one list the directory. -/
structure Paged (view : DirView) (dir : Directory) (sizes : List Nat) : Prop where
  once : ∀ call ∈ page view dir 0 sizes,
    call.replies = [view.direntsFrom call.off (view.longest call.size (dir.pairs.drop call.off))]
  complete : ∀ before call after, page view dir 0 sizes = before ++ call :: after →
    call.replies.flatten = [] →
    before.flatMap (fun call => call.replies.flatten) = view.direntsFrom 0 dir.pairs

/-! ## The buffer -/

namespace DirView

variable (view : DirView)

theorem totalSize_append (first second : List (Slice × Slice)) :
    view.totalSize (first ++ second) = view.totalSize first + view.totalSize second := by
  simp [totalSize]

theorem direntsFrom_append (off : Nat) (first second : List (Slice × Slice)) :
    view.direntsFrom off (first ++ second) =
      view.direntsFrom off first ++ view.direntsFrom (off + first.length) second := by
  simp only [direntsFrom, List.mapIdx_append, Nat.add_assoc, Nat.add_comm first.length]

theorem longest_of_fits : ∀ {size : Nat} {pairs : List (Slice × Slice)},
    view.totalSize pairs ≤ size → view.longest size pairs = pairs
  | _, [], _ => rfl
  | size, pair :: rest, fits => by
      have split : view.totalSize (pair :: rest) = view.entsize pair + view.totalSize rest := by
        simp [totalSize]
      rw [longest, if_pos (by omega), longest_of_fits (by omega)]

/-- The entry behind a list comes behind the offset, or is skipped. -/
theorem drop_concat (off : Nat) (pairs : List (Slice × Slice)) (pair : Slice × Slice) :
    (pairs ++ [pair]).drop off = if pairs.length < off then [] else pairs.drop off ++ [pair] := by
  split
  · exact List.drop_of_length_le (by simpa using ‹_›)
  · rw [List.drop_append_of_le_length (by omega)]

theorem calls_concat (size off : Nat) (pairs : List (Slice × Slice)) (pair : Slice × Slice) :
    view.calls size off (pairs ++ [pair]) =
      view.readDirScan size off (view.calls size off pairs).2 pair := by
  simp [calls]

/-- As long as the entries fit, they are all in the buffer. -/
theorem calls_of_fits {size off : Nat} {pairs : List (Slice × Slice)}
    (fits : view.totalSize (pairs.drop off) ≤ size) :
    view.calls size off pairs =
      (true, ⟨pairs.length, view.totalSize (pairs.drop off), view.direntsFrom off (pairs.drop off)⟩) := by
  induction pairs using List.reverseRecOn with
  | nil => simp [calls, totalSize, direntsFrom]
  | append_singleton pairs pair ih =>
      rw [drop_concat] at fits ⊢
      rw [calls_concat]
      by_cases skipped : pairs.length < off
      · have none' : pairs.drop off = [] := List.drop_of_length_le (by omega)
        rw [if_pos skipped] at fits ⊢
        rw [ih (by simp [none', totalSize]), none']
        simp only [readDirScan, List.length_append, List.length_singleton]
        rw [if_pos (by omega)]
      · rw [if_neg skipped, totalSize_append] at fits
        rw [if_neg skipped, totalSize_append, ih (by omega)]
        have one : view.totalSize [pair] = view.entsize pair := by simp [totalSize]
        have place : off + (pairs.drop off).length = pairs.length := by
          rw [List.length_drop]
          omega
        simp only [readDirScan, List.length_append, List.length_singleton, one]
        rw [if_neg (by omega), if_neg (by omega)]
        rw [direntsFrom_append, place]
        rfl

/-- An entry that does not fit is refused. -/
theorem calls_of_overfull {size off : Nat} {pairs : List (Slice × Slice)} {pair : Slice × Slice}
    (reached : off ≤ pairs.length) (fits : view.totalSize (pairs.drop off) ≤ size)
    (overfull : size < view.totalSize (pairs.drop off) + view.entsize pair) :
    (view.calls size off (pairs ++ [pair])).1 = false := by
  rw [calls_concat, calls_of_fits view fits]
  simp only [readDirScan]
  rw [if_neg (by omega), if_pos (by omega)]

/-- Entries that are too many for the buffer have a first one that does not fit. -/
theorem exists_overfull {size off : Nat} {pairs : List (Slice × Slice)}
    (overfull : size < view.totalSize (pairs.drop off)) :
    ∃ seen, seen <+: pairs ∧ (view.calls size off seen).1 = false := by
  induction pairs using List.reverseRecOn with
  | nil => simp [totalSize] at overfull
  | append_singleton pairs pair ih =>
      by_cases earlier : size < view.totalSize (pairs.drop off)
      · obtain ⟨seen, before, refused⟩ := ih earlier
        exact ⟨seen, before.trans (List.prefix_append ..), refused⟩
      · rw [drop_concat] at overfull
        split at overfull
        · simp [totalSize] at overfull
        · rename_i reached
          rw [totalSize_append] at overfull
          have one : view.totalSize [pair] = view.entsize pair := by simp [totalSize]
          exact ⟨_, List.prefix_rfl, view.calls_of_overfull (by omega) (by omega) (by omega)⟩

end DirView

/-! ## The replies -/

namespace DirView

variable (view : DirView) {size off : Nat}

theorem length_replies : ∀ (seen : List (Slice × Slice)) (effects : List Effect),
    (view.replies size off seen effects).length = respondCount effects
  | _, [] => rfl
  | seen, .scanned _ key value _ :: rest => by
      rw [replies, length_replies (seen ++ [(key, value)]) rest]
      simp [respondCount]
  | seen, .respond .. :: rest => by
      rw [replies, List.length_cons, length_replies seen rest]
      simp [respondCount]
  | seen, .submit _ :: rest => by
      rw [replies, length_replies seen rest]
      simp [respondCount]

theorem replies_calls (seen pairs : List (Slice × Slice)) (id : Nat) (rest : List Effect) :
    view.replies size off seen
        (pairs.map (fun pair => .scanned id pair.1 pair.2 true) ++ rest) =
      view.replies size off (seen ++ pairs) rest := by
  induction pairs generalizing seen with
  | nil => simp
  | cons pair pairs ih => simp [replies, ih]

/-- A scan that goes on to its end is answered once, with all it was called for. -/
theorem replies_of_goesOn {callback : ScanCallback} : ∀ {shares : List (List (Slice × Slice))}
    {batch : Batch}, shares ≠ [] → batch.requests.length = shares.length →
      (∀ seen, seen <+: shares.flatten → seen ≠ [] → callback (batch.delivered ++ seen) = true) →
      view.replies size off batch.delivered (scanShares callback shares batch) =
        [(view.calls size off (batch.delivered ++ shares.flatten)).2.entries]
  | [], _, some', _, _ => absurd rfl some'
  | pairs :: shares, batch, _, counted, goesOn => by
      have here := scanShare_of_goesOn (show ∀ seen, seen <+: pairs → seen ≠ [] →
          callback (({ batch with requests := batch.requests.tail } : Batch).delivered ++ seen) = true from
        fun seen ahead some' => goesOn seen (ahead.trans (List.prefix_append ..)) some')
      have left : batch.requests.tail.length = shares.length := by
        rw [List.length_tail, counted, List.length_cons, Nat.add_sub_cancel]
      simp only [scanShares, here, replies_calls]
      cases shares with
      | nil =>
          have cleared : batch.requests.tail = [] := List.eq_nil_of_length_eq_zero left
          simp [cleared, Batch.finishRequest, replies]
      | cons next shares =>
          have more : batch.requests.tail.isEmpty = false := by
            rw [List.isEmpty_eq_false_iff, ← List.length_pos_iff, left]
            exact Nat.succ_pos _
          simp only [more, Batch.finishRequest, Bool.false_eq_true, if_false, replies]
          have tail := replies_of_goesOn
            (List.cons_ne_nil next shares)
            (show (Batch.mk batch.id batch.requests.tail (batch.delivered ++ pairs)).requests.length =
              (next :: shares).length from left)
            (show ∀ seen, seen <+: (next :: shares).flatten → seen ≠ [] →
              callback ((batch.delivered ++ pairs) ++ seen) = true by
                intro seen ahead some'
                rw [List.append_assoc]
                exact goesOn (pairs ++ seen) (by simpa using ahead) (by simp [some']))
          rw [tail]
          simp [List.append_assoc]

end DirView

namespace Directory

variable (view : DirView) (dir : Directory) (size off : Nat)

theorem length_submitted : (dir.submitted view size off).requests.length = dir.shares.length := by
  have := List.length_pos_iff.mpr dir.workers
  simp only [submitted, scanCopies, DirView.readDirRequest, List.length_cons, List.length_map,
    List.length_range]
  omega

/-- Entries that all fit are the one reply. -/
theorem readDir_of_fits {size off : Nat} (fits : view.totalSize (dir.pairs.drop off) ≤ size) :
    dir.readDir view size off = [view.direntsFrom off (dir.pairs.drop off)] := by
  rw [readDir]
  refine (view.replies_of_goesOn dir.workers (dir.length_submitted view size off) ?_).trans ?_
  · rintro seen ⟨rest, whole⟩ -
    have shorter : view.totalSize (seen.drop off) ≤ view.totalSize (dir.pairs.drop off) := by
      rw [pairs, ← whole, List.drop_append, view.totalSize_append]
      omega
    change (view.calls size off seen).1 = true
    rw [view.calls_of_fits (by omega)]
  · change [(view.calls size off dir.pairs).2.entries] = _
    rw [view.calls_of_fits fits]

/-- **Entries that do not all fit are answered twice.** -/
theorem two_replies_of_overfull {size off : Nat}
    (overfull : size < view.totalSize (dir.pairs.drop off)) :
    2 ≤ (dir.readDir view size off).length := by
  obtain ⟨seen, ahead, refused⟩ := view.exists_overfull overfull
  have some' : seen ≠ [] := by
    rintro rfl
    simp [DirView.calls] at refused
  rw [readDir, view.length_replies]
  exact respondCount_of_stops (dir.length_submitted view size off) ahead some' refused

/-- The replies do not depend on the name of the batch. -/
theorem replies_rename (id : Nat) : ∀ (seen : List (Slice × Slice)) (effects : List Effect),
    view.replies size off seen (effects.map (Effect.rename id)) = view.replies size off seen effects
  | _, [] => rfl
  | seen, .scanned _ key value _ :: rest => replies_rename id (seen ++ [(key, value)]) rest
  | seen, .respond .. :: rest =>
      congrArg (List.cons (view.calls size off seen).2.entries) (replies_rename id seen rest)
  | seen, .submit _ :: rest => replies_rename id seen rest

/-- **The workers' threads compute `readDir`.**  With no other batch in the system, and
workers that read the directory's pairs, the scan of a `ReadDir` request leads to these
replies. -/
theorem readDir_of_run (split : Slice → Nat → Nat) (kernel : Kernel) {n : Nat} {j : Journal n}
    (counted : dir.shares.length = n) (waits : ∀ k, (j.db.nodes k).Waits)
    (reads : ∀ (k : Fin n) (pairs : List (Slice × Slice)), dir.shares[k.val]? = some pairs →
      (j.db.nodes k).Reads (FileKey.toSlice ⟨dir.stIno, 0, []⟩)
        (FileKey.toSlice ⟨dir.stIno + 1, 0, []⟩) pairs) :
    ∃ acts j' outs effects,
      Run.run (Journal.next split kernel) j
        (.submit [view.readDirRequest dir.stIno size off] :: acts) = some (j', outs) ∧
      effectsIn j'.log = effectsIn j.log ++ effects ∧
      view.replies size off [] effects = dir.readDir view size off := by
  obtain ⟨acts, j', outs, ran, effects, -⟩ :=
    scanShares_of_run split kernel dir.workers counted waits reads
  refine ⟨acts, j', outs, _, ran, effects, ?_⟩
  have renamed := scanShares_rename (view.callback size off) j.submitted.length dir.shares
    (dir.submitted view size off)
  have same := replies_rename view size off j.submitted.length []
    (scanShares (view.callback size off) dir.shares (dir.submitted view size off))
  subst counted
  rw [readDir, ← same, ← renamed]
  rfl

/-- One call does what it should exactly when its buffer holds all that is left. -/
theorem readDir_once_iff :
    dir.readDir view size off =
        [view.direntsFrom off (view.longest size (dir.pairs.drop off))] ↔
      view.totalSize (dir.pairs.drop off) ≤ size := by
  constructor
  · intro once
    by_contra overfull
    have twice := dir.two_replies_of_overfull view (Nat.lt_of_not_le overfull)
    rw [once] at twice
    simp at twice
  · intro fits
    rw [dir.readDir_of_fits view fits, view.longest_of_fits fits]

end Directory

/-! ## A listing -/

section Listing

variable (view : DirView) (dir : Directory)

/-- After a reply with the whole directory a client goes on at its end. -/
theorem resume_whole (pairs : List (Slice × Slice)) :
    resume 0 [view.direntsFrom 0 pairs] = pairs.length := by
  cases pairs using List.reverseRecOn with
  | nil => rfl
  | append_singleton pairs pair =>
      rw [view.direntsFrom_append]
      simp [resume, DirView.direntsFrom, DirView.dirent]

/-- At the end of the directory every reply is empty. -/
theorem page_at_end : ∀ (sizes : List Nat), ∀ call ∈ page view dir dir.pairs.length sizes,
    call.off = dir.pairs.length ∧ call.replies = [[]]
  | [], call, member => by cases member
  | size :: sizes, call, member => by
      have reply : dir.readDir view size dir.pairs.length = [[]] := by
        rw [dir.readDir_of_fits view (by simp [DirView.totalSize])]
        simp [DirView.direntsFrom]
      rw [page, reply] at member
      rcases List.mem_cons.mp member with rfl | later
      · exact ⟨rfl, rfl⟩
      · exact page_at_end sizes call later

/-- **Directory paging.**  For every directory, number of workers and sequence of buffer
sizes, paging lists every entry once, one reply for each call, if and only if the
first buffer holds the whole directory. -/
theorem paged_iff (sizes : List Nat) :
    Paged view dir sizes ↔ ∀ size ∈ sizes.head?, view.totalSize dir.pairs ≤ size := by
  cases sizes with
  | nil =>
      refine iff_of_true ⟨by simp [page], ?_⟩ (by simp)
      intro before call after shape
      simp [page] at shape
  | cons size sizes =>
      have first := dir.readDir_once_iff view size 0
      rw [List.drop_zero] at first
      simp only [List.head?_cons, Option.mem_some_iff, forall_eq']
      constructor
      · intro paged
        exact first.mp (paged.once _ (List.mem_cons_self ..))
      · intro fits
        have reply : dir.readDir view size 0 = [view.direntsFrom 0 dir.pairs] := by
          rw [first.mpr fits, view.longest_of_fits fits]
        have shape : page view dir 0 (size :: sizes) =
            ⟨0, size, [view.direntsFrom 0 dir.pairs]⟩ :: page view dir dir.pairs.length sizes := by
          rw [page, reply, resume_whole]
        have rest := page_at_end view dir sizes
        refine ⟨?_, ?_⟩
        · intro call member
          rw [shape] at member
          rcases List.mem_cons.mp member with rfl | later
          · rw [List.drop_zero, view.longest_of_fits fits]
          · obtain ⟨off, empty⟩ := rest call later
            rw [empty, off, List.drop_length]
            rfl
        · intro before call after split empty
          rw [shape] at split
          cases before with
          | nil =>
              obtain ⟨rfl, -⟩ := List.cons.inj split
              simpa using empty.symm
          | cons head before =>
              obtain ⟨rfl, later⟩ := List.cons.inj split
              have silent : ∀ call ∈ before, call.replies.flatten = [] := by
                intro call member
                rw [(rest call (later ▸ List.mem_append_left _ member)).2]
                rfl
              rw [List.flatMap_cons, List.flatMap_eq_nil_iff.mpr silent]
              simp

end Listing

/-- The sizes libfuse gives to entries. -/
def libfuseSize (plus : Bool) (name : Slice) : Nat :=
  ((if plus then 152 else 24) + name.length + 7) / 8 * 8

/-- Two entries on one worker and a buffer for one of them: the call is answered twice. -/
theorem paging_fails :
    ¬ ∀ (view : DirView) (dir : Directory) (sizes : List Nat),
      (∀ call ∈ page view dir 0 sizes, ∀ pair ∈ (dir.pairs.drop call.off).head?,
        view.entsize pair ≤ call.size) → Paged view dir sizes := by
  intro claim
  let view : DirView :=
    ⟨.new ⟨0x41ed, 2, 4096, 0, 0, 0, 0, 4096⟩ 8192 0, false, libfuseSize⟩
  let record : Slice := File.bytes ⟨File.regular, 1, 0x81a4, ⟨1, 0⟩, 0, 0, 2, 0⟩
  let dir : Directory :=
    ⟨1, [[((FileKey.ofName 1 [97]).toSlice, record), ((FileKey.ofName 1 [98]).toSlice, record)]],
      by decide⟩
  have roomy : ∀ call ∈ page view dir 0 [32], ∀ pair ∈ (dir.pairs.drop call.off).head?,
      view.entsize pair ≤ call.size := by
    decide +kernel
  have twice : (dir.readDir view 32 0).length = 2 := by decide +kernel
  have once := (claim view dir [32] roomy).once _ (List.mem_cons_self ..)
  rw [show dir.readDir view 32 0 = _ from once] at twice
  simp at twice

end KTableFS.Fs
