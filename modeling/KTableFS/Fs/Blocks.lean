/-
# Fs.Blocks -- who holds which aggregation block

`FileData::Create` recycles freed blocks and bumps a counter when none is free.  The
counter runs through 0, 1, .., 0x10000 before it rolls over to the next aggregation
file, one value more than the 16-bit field `aggr_t::no` has: the last block of an
aggregation file is its first one once more.

`Ledger` says which blocks are out: the live and the free ones are, together, the
blocks of the bumps so far.  A bump happens only when no block is free, so the number
of bumps is the largest number of files that were ever live at once, and

* `blocks_distinct_iff`: live files hold different blocks throughout a run if and only
  if never more than 65536 of them are live.
-/
import KTableFS.Fs.FileData
import KTableFS.Theory.Run
import Mathlib.Data.List.Induction
import Mathlib.Data.List.Nodup
import Mathlib.Data.List.Perm.Basic

namespace KTableFS.Fs

open KTableFS.Theory

set_option autoImplicit false

/-- The allocator, and the files that hold one of its blocks. -/
structure Holders where
  data : FileData
  live : List Extent

inductive BlockAct where
  /-- `FileHandle::FileHandle` of a regular file: a new inode number and `Create`. -/
  | create (stIno : Nat)
  /-- `Delete` of a live file, by its position among them. -/
  | delete (file : Nat)

namespace Holders

def new (slabSize : Nat) : Holders := ⟨.new slabSize, []⟩

/-- One call; `none` for a `Delete` of something that is not live. -/
def next (h : Holders) : BlockAct → Option (Holders × Unit)
  | .create stIno =>
      let created := h.data.create
      some (⟨created.2, h.live ++ [⟨stIno, created.1⟩]⟩, ())
  | .delete i => h.live[i]?.map fun file => (⟨h.data.delete file, h.live.eraseIdx i⟩, ())

/-- Live files hold different blocks, and so different bytes of an aggregation file. -/
structure Distinct (h : Holders) : Prop where
  aggrs : h.live.Pairwise fun a b => a.aggr ≠ b.aggr
  ranges : h.live.Pairwise fun a b => a.aggr.file = b.aggr.file →
    h.data.blockOff a h.data.aggrBlockSize ≤ h.data.blockOff b 0 ∨
      h.data.blockOff b h.data.aggrBlockSize ≤ h.data.blockOff a 0

end Holders

/-- The block of the `n`-th bump, counted from 0. -/
def blockOf (n : Nat) : AggrT := ⟨.ofNat (n / 65537 + 1), .ofNat (n % 65537)⟩

/-- After `n` bumps: where the counter stands, and that the blocks out are those of the
bumps. -/
structure Ledger (h : Holders) (n : Nat) : Prop where
  counter : h.data.curAggrFile * 65537 + h.data.curAggrIndex = n + 65536
  index : h.data.curAggrIndex ≤ 65536
  files : h.data.aggrFiles.length = h.data.curAggrFile
  blocks : (h.live.map Extent.aggr ++ h.data.aggrFree).Perm ((List.range n).map blockOf)

theorem Ledger.new (slabSize : Nat) : Ledger (.new slabSize) 0 where
  counter := by simp [Holders.new, FileData.new]
  index := le_rfl
  files := rfl
  blocks := .refl _

theorem Ledger.length {h : Holders} {n : Nat} (ledger : Ledger h n) :
    h.live.length + h.data.aggrFree.length = n := by
  simpa using ledger.blocks.length_eq

/-- A `Create` with a free block reuses it; otherwise the counter moves to the next
block. -/
theorem Ledger.create {h h' : Holders} {n stIno : Nat} {u : Unit} (ledger : Ledger h n)
    (created : h.next (.create stIno) = some (h', u)) :
    (h.data.aggrFree ≠ [] ∧ Ledger h' n) ∨
      (h.data.aggrFree = [] ∧ h'.data.aggrFree = [] ∧ Ledger h' (n + 1)) := by
  simp only [Holders.next, Option.some.injEq, Prod.mk.injEq, and_true] at created
  subst created
  have counter := ledger.counter
  have index := ledger.index
  have blocks := ledger.blocks
  cases free : h.data.aggrFree with
  | cons res rest =>
      have same : h.data.create = (res, { h.data with aggrFree := rest }) := by
        simp [FileData.create, free]
      refine Or.inl ⟨by simp, ?_⟩
      rw [same]
      refine ⟨counter, index, ledger.files, ?_⟩
      rw [free] at blocks
      simpa using blocks
  | nil =>
      rw [free, List.append_nil] at blocks
      refine Or.inr ⟨rfl, ?_⟩
      by_cases full : h.data.curAggrIndex = 0x10000
      · have same : h.data.create = (⟨.ofNat (h.data.curAggrFile + 1), .ofNat 0⟩,
            { h.data with
              curAggrFile := h.data.curAggrFile + 1
              curAggrIndex := 0
              aggrFiles := h.data.aggrFiles ++ [.empty] }) := by
          simp [FileData.create, free, full]
        have bumped : blockOf n = ⟨.ofNat (h.data.curAggrFile + 1), .ofNat 0⟩ := by
          have whole : n = h.data.curAggrFile * 65537 := by omega
          rw [blockOf, whole, Nat.mul_div_cancel _ (by decide), Nat.mul_mod_left]
        rw [same]
        have moved : (h.data.curAggrFile + 1) * 65537 = n + 1 + 65536 := by
          rw [Nat.succ_mul]
          omega
        refine ⟨free, ⟨(Nat.add_zero _).trans moved, Nat.zero_le _, by simp [ledger.files], ?_⟩⟩
        simp only [List.map_append, List.map_singleton, free, List.append_nil, List.range_succ,
          bumped]
        exact blocks.append_right _
      · have same : h.data.create = (⟨.ofNat h.data.curAggrFile, .ofNat (h.data.curAggrIndex + 1)⟩,
            { h.data with curAggrIndex := h.data.curAggrIndex + 1 }) := by
          simp [FileData.create, free, full]
        have bumped : blockOf n =
            ⟨.ofNat h.data.curAggrFile, .ofNat (h.data.curAggrIndex + 1)⟩ := by
          obtain ⟨file, started⟩ : ∃ file, h.data.curAggrFile = file + 1 :=
            Nat.exists_eq_succ_of_ne_zero (by omega)
          have here : n = h.data.curAggrIndex + 1 + 65537 * file := by omega
          have small : h.data.curAggrIndex + 1 < 65537 := by omega
          rw [blockOf, here, Nat.add_mul_div_left _ _ (by decide), Nat.add_mul_mod_self_left,
            Nat.div_eq_of_lt small, Nat.mod_eq_of_lt small, started, Nat.zero_add]
        rw [same]
        have moved : h.data.curAggrFile * 65537 + (h.data.curAggrIndex + 1) = n + 1 + 65536 := by
          omega
        have room : h.data.curAggrIndex + 1 ≤ 65536 := by omega
        refine ⟨free, ⟨moved, room, ledger.files, ?_⟩⟩
        simp only [List.map_append, List.map_singleton, free, List.append_nil, List.range_succ,
          bumped]
        exact blocks.append_right _

/-- `Delete` moves a live block to the free list. -/
theorem Ledger.delete {h h' : Holders} {n i : Nat} {u : Unit} (ledger : Ledger h n)
    (deleted : h.next (.delete i) = some (h', u)) : Ledger h' n := by
  simp only [Holders.next, Option.map_eq_some_iff, Prod.mk.injEq, and_true] at deleted
  obtain ⟨file, found, rfl⟩ := deleted
  refine ⟨ledger.counter, ledger.index, ledger.files, ?_⟩
  have inside : i < h.live.length := (List.getElem?_eq_some_iff.mp found).1
  have here : h.live[i] = file := (List.getElem?_eq_some_iff.mp found).2
  have out : (file :: h.live.eraseIdx i).Perm h.live := here ▸ List.getElem_cons_eraseIdx_perm inside
  have moved : ((h.live.eraseIdx i).map Extent.aggr ++ (h.data.aggrFree ++ [file.aggr])).Perm
      (h.live.map Extent.aggr ++ h.data.aggrFree) := by
    rw [← List.append_assoc]
    exact (List.perm_append_singleton _ _).trans ((out.map Extent.aggr).append_right _)
  exact moved.trans ledger.blocks

/-- Every call keeps the books, with at most one more bump; a bump leaves no block free. -/
theorem Ledger.next {h h' : Holders} {n : Nat} {act : BlockAct} {u : Unit} (ledger : Ledger h n)
    (taken : h.next act = some (h', u)) :
    Ledger h' n ∨ h'.data.aggrFree = [] ∧ Ledger h' (n + 1) := by
  cases act with
  | create stIno =>
      rcases ledger.create taken with ⟨-, kept⟩ | ⟨-, free, bumped⟩
      · exact Or.inl kept
      · exact Or.inr ⟨free, bumped⟩
  | delete i => exact Or.inl (ledger.delete taken)

/-! ## Distinct blocks -/

theorem blockOf_injective {i j : Nat} (small : i < 65536) (small' : j < 65536)
    (same : blockOf i = blockOf j) : i = j := by
  have number : UInt16.ofNat (i % 65537) = UInt16.ofNat (j % 65537) := congrArg AggrT.no same
  have nats := congrArg UInt16.toNat number
  rw [UInt16.toNat_ofNat', UInt16.toNat_ofNat'] at nats
  omega

/-- The 65537th block is the first one. -/
theorem blockOf_wraps : blockOf 65536 = blockOf 0 := by
  decide

theorem Ledger.distinct {h : Holders} {n : Nat} (ledger : Ledger h n) (few : n ≤ 65536) :
    h.Distinct := by
  have nodup : (h.live.map Extent.aggr).Nodup := by
    have all : ((List.range n).map blockOf).Nodup := by
      refine List.Nodup.map_on ?_ List.nodup_range
      intro i inRange j inRange' same
      rw [List.mem_range] at inRange inRange'
      exact blockOf_injective (by omega) (by omega) same
    exact (List.nodup_append.mp (ledger.blocks.nodup_iff.mpr all)).1
  have aggrs : h.live.Pairwise fun a b => a.aggr ≠ b.aggr := List.pairwise_map.mp nodup
  refine ⟨aggrs, aggrs.imp ?_⟩
  intro a b differ sameFile
  have numbers : a.aggr.no.toNat ≠ b.aggr.no.toNat := by
    intro same
    have sameNo : a.aggr.no = b.aggr.no := UInt16.toNat_inj.mp same
    exact differ (by cases ha : a.aggr; cases hb : b.aggr; simp_all)
  simp only [FileData.blockOff]
  rcases Nat.lt_or_gt_of_ne numbers with below | above
  · left
    calc a.aggr.no.toNat * h.data.aggrBlockSize + h.data.aggrBlockSize
        = (a.aggr.no.toNat + 1) * h.data.aggrBlockSize := (Nat.succ_mul ..).symm
      _ ≤ b.aggr.no.toNat * h.data.aggrBlockSize := Nat.mul_le_mul_right _ below
      _ = b.aggr.no.toNat * h.data.aggrBlockSize + 0 := rfl
  · right
    calc b.aggr.no.toNat * h.data.aggrBlockSize + h.data.aggrBlockSize
        = (b.aggr.no.toNat + 1) * h.data.aggrBlockSize := (Nat.succ_mul ..).symm
      _ ≤ a.aggr.no.toNat * h.data.aggrBlockSize := Nat.mul_le_mul_right _ above
      _ = a.aggr.no.toNat * h.data.aggrBlockSize + 0 := rfl

/-- When the 65537th bump has left no block free, the first and the last block are
both live. -/
theorem Ledger.not_distinct {h : Holders} (ledger : Ledger h 65537) (free : h.data.aggrFree = []) :
    ¬ h.Distinct := by
  intro distinct
  have nodup : (h.live.map Extent.aggr).Nodup := List.pairwise_map.mpr distinct.aggrs
  have blocks := ledger.blocks
  rw [free, List.append_nil] at blocks
  have all := blocks.nodup_iff.mp nodup
  have same := List.inj_on_of_nodup_map all (List.mem_range.mpr (show 65536 < 65537 by omega))
    (List.mem_range.mpr (show 0 < 65537 by omega)) blockOf_wraps
  omega

theorem Ledger.files_le {h : Holders} {n : Nat} (ledger : Ledger h n) (few : n ≤ 65537) :
    h.data.aggrFiles.length ≤ 1 := by
  have counter := ledger.counter
  have files := ledger.files
  omega

/-! ## Runs -/

/-- The states of a run, one after each call. -/
def Visits (slabSize : Nat) (acts : List BlockAct) (n : Nat) (h : Holders) : Prop :=
  ∃ outs, Run.run Holders.next (.new slabSize) (acts.take n) = some (h, outs)

/-- If every state of a run that has bumped at most 65537 times, and has no free block
then, meets a condition that rules out the 65537th bump, no state has bumped so often. -/
theorem few_bumps {slabSize : Nat} {acts : List BlockAct} {P : Holders → Prop}
    (rules : ∀ h, Ledger h 65537 → h.data.aggrFree = [] → ¬ P h)
    (all : ∀ n h, Visits slabSize acts n h → P h) :
    ∀ n h, Visits slabSize acts n h → ∃ bumps ≤ 65536, Ledger h bumps := by
  intro n
  induction n with
  | zero =>
      rintro h ⟨outs, ran⟩
      rw [List.take_zero, Run.run_nil] at ran
      cases ran
      exact ⟨0, by omega, .new slabSize⟩
  | succ n ih =>
      rintro h ⟨outs, ran⟩
      have visited : Visits slabSize acts (n + 1) h := ⟨outs, ran⟩
      rw [List.take_add_one] at ran
      obtain ⟨mid, first, _, ranFirst, last, -⟩ := Run.run_append_eq_some.mp ran
      obtain ⟨bumps, few, ledger⟩ := ih mid ⟨first, ranFirst⟩
      cases here : acts[n]? with
      | none =>
          rw [here] at last
          cases last
          exact ⟨bumps, few, ledger⟩
      | some act =>
          rw [here] at last
          obtain ⟨_, u, _, taken, done, -⟩ := Run.run_cons_eq_some.mp last
          cases done
          rcases ledger.next taken with kept | ⟨free, bumped⟩
          · exact ⟨bumps, few, kept⟩
          · refine ⟨bumps + 1, ?_, bumped⟩
            by_contra many
            obtain rfl : bumps = 65536 := by omega
            exact rules h bumped free (all (n + 1) h visited)

/-- **Live files hold different blocks exactly as long as at most 65536 are live.**  For
every sequence of `Create` and `Delete` calls: in every state in which fewer than 65536
aggregation files have been started the live files' blocks are distinct, if and only if
in no state more than 65536 files are live. -/
theorem blocks_distinct_iff (slabSize : Nat) (acts : List BlockAct) :
    (∀ n h, Visits slabSize acts n h → h.data.aggrFiles.length < 65536 → h.Distinct) ↔
      ∀ n h, Visits slabSize acts n h → h.live.length ≤ 65536 := by
  constructor
  · intro distinct n h visited
    have rules : ∀ h, Ledger h 65537 → h.data.aggrFree = [] →
        ¬ (h.data.aggrFiles.length < 65536 → h.Distinct) := by
      intro h ledger free always
      have started := ledger.files_le le_rfl
      exact ledger.not_distinct free (always (by omega))
    obtain ⟨bumps, few, ledger⟩ := few_bumps rules distinct n h visited
    have count := ledger.length
    omega
  · intro live n h visited _
    have rules : ∀ h, Ledger h 65537 → h.data.aggrFree = [] → ¬ h.live.length ≤ 65536 := by
      intro h ledger free small
      have count := ledger.length
      rw [free, List.length_nil] at count
      omega
    obtain ⟨bumps, few, ledger⟩ := few_bumps rules live n h visited
    exact ledger.distinct few

/-! ## 65537 files -/

/-- Files that are only created come from bumps alone. -/
theorem creates_ledger (slabSize : Nat) : ∀ inos : List Nat, ∃ h outs,
    Run.run Holders.next (.new slabSize) (inos.map .create) = some (h, outs) ∧
      h.data.aggrFree = [] ∧ Ledger h inos.length := by
  intro inos
  induction inos using List.reverseRecOn with
  | nil => exact ⟨_, [], rfl, rfl, .new slabSize⟩
  | append_singleton inos ino ih =>
      obtain ⟨h, outs, ran, free, ledger⟩ := ih
      cases taken : h.next (.create ino) with
      | none => simp [Holders.next] at taken
      | some out =>
          obtain ⟨h', u⟩ := out
          rcases ledger.create taken with ⟨some', -⟩ | ⟨-, free', bumped⟩
          · exact absurd free some'
          · refine ⟨h', outs ++ [u], ?_, free', by simpa using bumped⟩
            rw [List.map_append]
            exact Run.run_append_eq_some.mpr ⟨h, outs, [u], ran,
              Run.run_cons_eq_some.mpr ⟨h', u, [], taken, rfl, rfl⟩, rfl⟩

/-- Of 65537 files created one after the other the last one gets the block of the
first. -/
theorem blocks_shared : ¬ ∀ (slabSize : Nat) (acts : List BlockAct) (n : Nat) (h : Holders),
    Visits slabSize acts n h → h.data.aggrFiles.length < 65536 → h.Distinct := by
  intro always
  obtain ⟨h, outs, ran, free, ledger⟩ := creates_ledger 4096 (List.range 65537)
  rw [List.length_range] at ledger
  have started := ledger.files_le le_rfl
  refine ledger.not_distinct free (always 4096 ((List.range 65537).map .create) 65537 h ?_ (by omega))
  have whole : ((List.range 65537).map BlockAct.create).take 65537 =
      (List.range 65537).map .create := List.take_of_length_le (by simp)
  exact ⟨outs, by rw [whole]; exact ran⟩

end KTableFS.Fs
