import Bpfs.DiskReads
import Mathlib.Data.Finset.Card

/-! Allocation of disk blocks: which blocks are in use after any calls of `findFreeBlock` and `freeBlock`, and when the
next call of `findFreeBlock` answers right. The last block of the disk is never handed out. -/

namespace Bpfs
open Lib

namespace DiskManager

/-- As an `int` the answer is not negative. -/
def NonNegative (answer : Nat) : Prop := answer < 2 ^ 63

instance (answer : Nat) : Decidable (NonNegative answer) := inferInstanceAs (Decidable (answer < 2 ^ 63))

/-- The blocks in use once `findFreeBlock` has answered. -/
def taken (used : Finset Nat) (answer : Nat) : Finset Nat := if NonNegative answer then insert answer used else used

/-- The disk manager is reached by calls of `findFreeBlock`, where `P` says when, and calls of `freeBlock` on blocks in
use, and these blocks are in use. -/
inductive Reaches (P : DiskManager → Finset Nat → Prop) : DiskManager → Finset Nat → Prop where
  | start (size blockSize : Nat) (fresh : Nat → UInt8) (emptyString : UInt8) (small : size / blockSize < 2 ^ 31) :
      Reaches P (initializeDiskManager size blockSize fresh emptyString) ∅
  | find {dm : DiskManager} {used : Finset Nat} (before : Reaches P dm used) (allowed : P dm used) :
      Reaches P dm.findFreeBlock.2 (taken used dm.findFreeBlock.1)
  | free {dm dm' : DiskManager} {used : Finset Nat} {blockNumber : Nat} (before : Reaches P dm used)
      (member : blockNumber ∈ used) (run : dm.freeBlock blockNumber = some dm') : Reaches P dm' (used.erase blockNumber)

/-- The answer of the next `findFreeBlock` is a free block of the disk, or -1 if there is none. -/
structure FindsFree (dm : DiskManager) (used : Finset Nat) : Prop where
  free : NonNegative dm.findFreeBlock.1 → dm.findFreeBlock.1 < dm.totalBlockCount ∧ dm.findFreeBlock.1 ∉ used
  full : dm.findFreeBlock.1 = minusOne → ∀ blockNumber < dm.totalBlockCount, blockNumber ∈ used

/-- At least two blocks are not in use. -/
def Roomy (dm : DiskManager) (used : Finset Nat) : Prop := used.card + 1 < dm.totalBlockCount

/-- The blocks below the cursor are in use or in the free list, never both. -/
structure Accounts (dm : DiskManager) (used : Finset Nat) : Prop where
  small : dm.totalBlockCount < 2 ^ 31
  cursor : dm.currentDiskBlockNumber ≤ dm.totalBlockCount - 1
  listed : ∀ blockNumber ∈ dm.freeList, blockNumber < dm.currentDiskBlockNumber
  once : dm.freeList.Nodup
  used : ∀ blockNumber, blockNumber ∈ used ↔ blockNumber < dm.currentDiskBlockNumber ∧ blockNumber ∉ dm.freeList

section Steps

variable {dm dm' : DiskManager} {used : Finset Nat} {no blockNumber : Nat}

theorem Accounts.card (accounts : Accounts dm used) : used.card + dm.freeList.length = dm.currentDiskBlockNumber := by
  have all : used ∪ dm.freeList.toFinset = Finset.range dm.currentDiskBlockNumber := by
    ext blockNumber
    rw [Finset.mem_union, accounts.used, List.mem_toFinset, Finset.mem_range]
    constructor
    · rintro (⟨low, -⟩ | listed)
      · exact low
      · exact accounts.listed blockNumber listed
    · intro low
      by_cases listed : blockNumber ∈ dm.freeList
      · exact Or.inr listed
      · exact Or.inl ⟨low, listed⟩
  have apart : Disjoint used dm.freeList.toFinset :=
    Finset.disjoint_left.mpr fun blockNumber inside listed =>
      ((accounts.used blockNumber).mp inside).2 (List.mem_toFinset.mp listed)
  have count := congrArg Finset.card all
  rwa [Finset.card_union_of_disjoint apart, List.toFinset_card_of_nodup accounts.once, Finset.card_range] at count

/-- While two blocks are not in use there is one to hand out: at the cursor, or in the free list. -/
theorem Accounts.find_cases (accounts : Accounts dm used) (roomy : Roomy dm used) :
    (dm.currentDiskBlockNumber + 1 < dm.totalBlockCount ∧ dm.findFreeBlock =
      (dm.currentDiskBlockNumber, { dm with currentDiskBlockNumber := dm.currentDiskBlockNumber + 1 })) ∨
    ∃ no rest, dm.freeList = no :: rest ∧ no < dm.currentDiskBlockNumber ∧
      dm.findFreeBlock = (no, { dm with freeList := rest }) := by
  have count := accounts.card
  have small := accounts.small
  have cursor := accounts.cursor
  unfold Roomy at roomy
  have bound : usub dm.totalBlockCount 1 = dm.totalBlockCount - 1 := by
    unfold usub
    omega
  unfold findFreeBlock
  rw [bound]
  by_cases last : dm.totalBlockCount - 1 ≤ dm.currentDiskBlockNumber
  · cases list : dm.freeList with
    | nil =>
      rw [list, List.length_nil] at count
      omega
    | cons no rest =>
      have low : no < dm.currentDiskBlockNumber := accounts.listed no (by rw [list]; exact List.mem_cons_self ..)
      refine Or.inr ⟨no, rest, rfl, low, ?_⟩
      rw [if_pos last, getBlockFromFreeList, list]
      dsimp only
      rw [if_neg (ne_minusOne (by omega)), throughInt_small (by omega)]
  · refine Or.inl ⟨by omega, ?_⟩
    rw [if_neg last, throughInt_small (by omega)]

theorem Accounts.find (accounts : Accounts dm used) (roomy : Roomy dm used) :
    Accounts dm.findFreeBlock.2 (taken used dm.findFreeBlock.1) := by
  have small := accounts.small
  have cursor := accounts.cursor
  rcases accounts.find_cases roomy with ⟨room, result⟩ | ⟨no, rest, list, low, result⟩
  · have sign : NonNegative dm.currentDiskBlockNumber := by
      unfold NonNegative
      omega
    rw [result, taken, if_pos sign]
    refine ⟨small, by dsimp only; omega, fun other listed => ?_, accounts.once, fun other => ?_⟩
    · exact Nat.lt_succ_of_lt (accounts.listed other listed)
    · rw [Finset.mem_insert, accounts.used, Nat.lt_succ_iff_lt_or_eq]
      constructor
      · rintro (rfl | ⟨below, unlisted⟩)
        · exact ⟨Or.inr rfl, fun listed => absurd (accounts.listed _ listed) (lt_irrefl _)⟩
        · exact ⟨Or.inl below, unlisted⟩
      · rintro ⟨below | here, unlisted⟩
        · exact Or.inr ⟨below, unlisted⟩
        · exact Or.inl here
  · have sign : NonNegative no := by
      unfold NonNegative
      omega
    have once := accounts.once
    have listed := accounts.listed
    rw [list] at once listed
    obtain ⟨single, once⟩ := List.nodup_cons.mp once
    rw [result, taken, if_pos sign]
    refine ⟨small, cursor, fun other later => listed other (List.mem_cons_of_mem _ later), once, fun other => ?_⟩
    rw [Finset.mem_insert, accounts.used, list, List.mem_cons, not_or]
    constructor
    · rintro (rfl | ⟨below, -, unlisted⟩)
      · exact ⟨low, single⟩
      · exact ⟨below, unlisted⟩
    · rintro ⟨below, unlisted⟩
      by_cases here : other = no
      · exact Or.inl here
      · exact Or.inr ⟨below, here, unlisted⟩

/-- A freed block goes to the free list; beyond that only the file and the prefetched blocks change. -/
theorem freeBlock_fields (run : dm.freeBlock blockNumber = some dm') : dm'.totalBlockCount = dm.totalBlockCount ∧
    dm'.currentDiskBlockNumber = dm.currentDiskBlockNumber ∧ dm'.freeList = blockNumber :: dm.freeList := by
  unfold freeBlock at run
  obtain ⟨dm₁, written, run⟩ := Option.bind_eq_some_iff.mp run
  obtain ⟨dm₂, dropped, rfl⟩ := Option.map_eq_some_iff.mp run
  have first : dm₁.totalBlockCount = dm.totalBlockCount ∧ dm₁.currentDiskBlockNumber = dm.currentDiskBlockNumber ∧
      dm₁.freeList = dm.freeList := by
    unfold putBlock at written
    dsimp only at written
    split at written
    · obtain rfl := Option.some.inj written
      exact ⟨rfl, rfl, rfl⟩
    · cases written
  have second : dm₂.totalBlockCount = dm₁.totalBlockCount ∧ dm₂.currentDiskBlockNumber = dm₁.currentDiskBlockNumber ∧
      dm₂.freeList = dm₁.freeList := by
    unfold dropPrefetched at dropped
    split at dropped
    · obtain rfl := Option.some.inj dropped
      exact ⟨rfl, rfl, rfl⟩
    · split at dropped
      · obtain rfl := Option.some.inj dropped
        exact ⟨rfl, rfl, rfl⟩
      · cases dropped
  refine ⟨second.1.trans first.1, second.2.1.trans first.2.1, ?_⟩
  rw [addBlockToFreeList, second.2.2, first.2.2]

theorem Accounts.free (accounts : Accounts dm used) (member : blockNumber ∈ used)
    (run : dm.freeBlock blockNumber = some dm') : Accounts dm' (used.erase blockNumber) := by
  obtain ⟨total, cursor, list⟩ := freeBlock_fields run
  obtain ⟨low, unlisted⟩ := (accounts.used blockNumber).mp member
  refine ⟨total ▸ accounts.small, ?_, fun other listed => ?_, ?_, fun other => ?_⟩
  · rw [total, cursor]
    exact accounts.cursor
  · rw [cursor]
    rw [list] at listed
    rcases List.mem_cons.mp listed with rfl | old
    · exact low
    · exact accounts.listed other old
  · rw [list]
    exact List.nodup_cons.mpr ⟨unlisted, accounts.once⟩
  · rw [Finset.mem_erase, accounts.used, cursor, list, List.mem_cons, not_or]
    exact ⟨fun ⟨other, below, free⟩ => ⟨below, other, free⟩, fun ⟨below, other, free⟩ => ⟨other, below, free⟩⟩

theorem Reaches.accounts (reaches : Reaches Roomy dm used) : Accounts dm used := by
  induction reaches with
  | start size blockSize fresh emptyString small =>
    exact ⟨small, Nat.zero_le _, nofun, List.nodup_nil, fun blockNumber => by simp [initializeDiskManager]⟩
  | find before allowed ih => exact ih.find allowed
  | free before member run ih => exact ih.free member run

end Steps

section Claim

variable {dm : DiskManager} {used : Finset Nat}

/-- After calls that were all made while two blocks were not in use, the next one answers right exactly if it is, too. -/
theorem findFreeBlock_right_iff (reaches : Reaches Roomy dm used) : FindsFree dm used ↔ Roomy dm used := by
  have accounts := reaches.accounts
  have small := accounts.small
  have cursor := accounts.cursor
  constructor
  · intro right
    by_contra tight
    have count := accounts.card
    unfold Roomy at tight
    by_cases none : dm.totalBlockCount = 0
    · -- the bound wraps to the largest number, so a disk without blocks hands out block 0
      have result : dm.findFreeBlock.1 = 0 := by
        unfold findFreeBlock
        rw [none, if_neg (by unfold usub; omega)]
        dsimp only
        rw [throughInt_small (by omega)]
        omega
      have sign : NonNegative dm.findFreeBlock.1 := by
        rw [result]
        decide
      have below := (right.free sign).1
      omega
    · -- the cursor stops at the last block and nothing is in the free list
      have empty : dm.freeList = [] := List.length_eq_zero_iff.mp (by omega)
      have result : dm.findFreeBlock.1 = minusOne := by
        unfold findFreeBlock
        rw [if_pos (by unfold usub; omega), getBlockFromFreeList, empty]
        rfl
      have last := right.full result (dm.totalBlockCount - 1) (by omega)
      have := ((accounts.used _).mp last).1
      omega
  · intro roomy
    rcases accounts.find_cases roomy with ⟨room, result⟩ | ⟨no, rest, list, low, result⟩
    · refine ⟨fun _ => ?_, fun wrong => ?_⟩
      · rw [result]
        exact ⟨by dsimp only; omega, fun inside => absurd ((accounts.used _).mp inside).1 (lt_irrefl _)⟩
      · rw [result] at wrong
        exact absurd wrong (ne_minusOne (by omega))
    · refine ⟨fun _ => ?_, fun wrong => ?_⟩
      · rw [result]
        refine ⟨by dsimp only; omega, fun inside => ((accounts.used _).mp inside).2 ?_⟩
        rw [list]
        exact List.mem_cons_self ..
      · rw [result] at wrong
        exact absurd wrong (ne_minusOne (by omega))

/-- A disk of two blocks, with none in use. -/
def twoBlocks : DiskManager := initializeDiskManager (2 * blockSize) blockSize (fun _ => 0) 0

theorem findFreeBlock_right_iff_twoBlocks : FindsFree twoBlocks ∅ ↔ Roomy twoBlocks ∅ :=
  findFreeBlock_right_iff (.start _ _ _ _ (by decide))

/-- The second call answers -1, while block 1 is not in use. -/
theorem findFreeBlock_refuses : Reaches (fun _ _ => True) twoBlocks.findFreeBlock.2 {0} ∧
    twoBlocks.findFreeBlock.2.findFreeBlock.1 = minusOne ∧ 1 < twoBlocks.findFreeBlock.2.totalBlockCount ∧
    1 ∉ ({0} : Finset Nat) := by
  have start : Reaches (fun _ _ => True) twoBlocks ∅ := .start _ _ _ _ (by decide)
  have first : taken ∅ twoBlocks.findFreeBlock.1 = {0} := by decide
  rw [← first]
  exact ⟨start.find trivial, by decide, by decide, by decide⟩

end Claim

end DiskManager

end Bpfs
