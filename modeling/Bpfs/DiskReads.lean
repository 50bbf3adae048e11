import Bpfs.Disk
import Mathlib.Data.List.Nodup

/-! Reads of the disk file with and without prefetching. The free list, the cursor and the
blocks in use never overlap, so a plain read returns the last bytes written; a prefetched
read does so only while the copy it finds is still that block's. -/

namespace Bpfs
namespace DiskManager

/-- The disk blocks in use, with the bytes last written to each. -/
abbrev Uses := Nat → Option (Nat → UInt8)

def Uses.set (uses : Uses) (b : Nat) (data : Option (Nat → UInt8)) : Uses :=
  fun k => if k = b then data else uses k

/-- A call to the disk manager. -/
inductive Op where
  | writeBlock (buf : Nat → UInt8)
  | writeBlocksInBulk (numbers : Nat → Nat) (bufs : List (Nat → UInt8))
  | freeBlock (blockNumber : Nat)
  | readBlock (blockNumber : Nat)
  | readBlocksWithPrefetch (blockNumber : Nat)

/-- What the blocks in use hold after the bulk write of `bufs`. -/
def bulkUses (dm : DiskManager) (uses : Uses) : List (Nat → UInt8) → Uses
  | [] => uses
  | buf :: rest => (dm.writeBlock buf).elim uses fun done =>
      if done.1 = minusOne then uses else bulkUses done.2 (uses.set done.1 (some buf)) rest

/-- One call and what is in use after it; nothing when the call does not come back, or
frees a block that is not in use. -/
def Op.step (dm : DiskManager) (uses : Uses) : Op → Option (DiskManager × Uses)
  | .writeBlock buf => (dm.writeBlock buf).map fun done =>
      (done.2, if done.1 = minusOne then uses else uses.set done.1 (some buf))
  | .writeBlocksInBulk numbers bufs => (dm.writeBlocksInBulk numbers bufs 0).map fun done =>
      (done.2, dm.bulkUses uses bufs)
  | .freeBlock b => if (uses b).isSome then (dm.freeBlock b).map fun dm => (dm, uses.set b none) else none
  | .readBlock b => (dm.readBlock b).map fun _ => (dm, uses)
  | .readBlocksWithPrefetch b => (dm.readBlocksWithPrefetch b).map fun read => (read.2, uses)

def runOps (dm : DiskManager) (uses : Uses) : List Op → Option (DiskManager × Uses)
  | [] => some (dm, uses)
  | op :: ops =>
      match op.step dm uses with
      | none => none
      | some (dm, uses) => runOps dm uses ops

/-- Blocks in use are in the disk file and apart from the free ones. -/
structure InUse (dm : DiskManager) (uses : Uses) : Prop where
  size : dm.diskManagerBlockSize = blockSize
  cursor : dm.currentDiskBlockNumber ≤ 2 ^ 31
  length : dm.currentDiskBlockNumber * blockSize ≤ dm.fileLen
  used : ∀ {b : Nat} {data : Nat → UInt8}, uses b = some data →
    b < dm.currentDiskBlockNumber ∧ ∀ o, o < blockSize → dm.file (b * blockSize + o) = data o
  free : ∀ b ∈ dm.freeList, b < dm.currentDiskBlockNumber ∧ uses b = none
  once : dm.freeList.Nodup

variable {dm : DiskManager} {uses : Uses}

theorem throughInt_small {n : Nat} (small : n < 2 ^ 31) : throughInt n = n := by
  unfold throughInt
  rw [Nat.mod_eq_of_lt (by omega), if_pos small]

theorem mul_block_lt {b c : Nat} (less : b < c) : b * blockSize + blockSize ≤ c * blockSize := by
  rw [← Nat.succ_mul]
  exact Nat.mul_le_mul_right _ less

theorem putBlock_eq {b : Nat} (data : Nat → UInt8) (size : dm.diskManagerBlockSize = blockSize) (small : b < 2 ^ 31) :
    dm.putBlock b data = some (dm.pwrite (b * blockSize) blockSize data) := by
  have offset : u64 (b * blockSize) = b * blockSize := by
    unfold u64 blockSize
    omega
  simp only [putBlock, size, offset]
  rw [if_pos (by unfold blockSize; omega)]

theorem pwrite_same {b o : Nat} {data : Nat → UInt8} (inside : o < blockSize) :
    (dm.pwrite (b * blockSize) blockSize data).file (b * blockSize + o) = data o := by
  simp only [pwrite]
  rw [if_pos ⟨Nat.le_add_right _ _, by omega⟩, Nat.add_sub_cancel_left]

theorem pwrite_other {b c o : Nat} {data : Nat → UInt8} (other : c ≠ b) (inside : o < blockSize)
    (within : c * blockSize + o < dm.fileLen) :
    (dm.pwrite (b * blockSize) blockSize data).file (c * blockSize + o) = dm.file (c * blockSize + o) := by
  simp only [pwrite]
  rw [if_neg, if_pos within]
  rintro ⟨low, high⟩
  rcases Nat.lt_or_gt_of_ne other with below | above
  · have := mul_block_lt below
    omega
  · have := mul_block_lt above
    omega

/-- A block that was free, or is the next one at the cursor, is written. -/
theorem InUse.put {b cursor : Nat} {freeList : List Nat} {data : Nat → UInt8} (inUse : InUse dm uses)
    (limit : cursor ≤ 2 ^ 31) (below : b < cursor)
    (next : cursor = dm.currentDiskBlockNumber ∨ (cursor = dm.currentDiskBlockNumber + 1 ∧ b = dm.currentDiskBlockNumber))
    (fewer : freeList.Sublist dm.freeList) (notFree : b ∉ freeList) :
    InUse (({ dm with currentDiskBlockNumber := cursor, freeList := freeList } : DiskManager).pwrite
      (b * blockSize) blockSize data) (uses.set b (some data)) := by
  have length := inUse.length
  have step := mul_block_lt below
  refine ⟨inUse.size, limit, ?_, ?_, ?_, inUse.once.sublist fewer⟩
  · change cursor * blockSize ≤ max dm.fileLen (b * blockSize + blockSize)
    rcases next with same | ⟨more, same⟩
    · rw [same]
      exact le_trans length (Nat.le_max_left _ _)
    · rw [more, same, Nat.succ_mul]
      exact Nat.le_max_right _ _
  · intro c data' used
    simp only [Uses.set] at used
    split at used
    · next same =>
      cases used
      subst same
      exact ⟨below, fun o inside => pwrite_same inside⟩
    · next other =>
      obtain ⟨here, bytes⟩ := inUse.used used
      refine ⟨by change c < cursor; omega, fun o inside => ?_⟩
      have := mul_block_lt here
      refine Eq.trans (pwrite_other other inside ?_) (bytes o inside)
      change c * blockSize + o < dm.fileLen
      omega
  · intro c member
    obtain ⟨low, unused⟩ := inUse.free c (fewer.subset member)
    refine ⟨by change c < cursor; omega, ?_⟩
    rw [Uses.set, if_neg (fun (same : c = b) => notFree (same ▸ member))]
    exact unused

theorem ne_minusOne {b : Nat} (small : b < 2 ^ 31) : b ≠ minusOne := by
  unfold minusOne
  omega

/-- The four ways `findFreeBlock` can go. -/
theorem findFreeBlock_cases (inUse : InUse dm uses) :
    dm.findFreeBlock = (minusOne, dm) ∨
    (∃ b rest, dm.freeList = b :: rest ∧ dm.findFreeBlock = (b, { dm with freeList := rest })) ∨
    (dm.currentDiskBlockNumber < 2 ^ 31 ∧ dm.findFreeBlock = (dm.currentDiskBlockNumber,
      { dm with currentDiskBlockNumber := dm.currentDiskBlockNumber + 1 })) ∨
    (dm.currentDiskBlockNumber = 2 ^ 31 ∧ dm.findFreeBlock = (throughInt (2 ^ 31),
      { dm with currentDiskBlockNumber := dm.currentDiskBlockNumber + 1 })) := by
  have cursor := inUse.cursor
  unfold findFreeBlock
  by_cases full : usub dm.totalBlockCount 1 ≤ dm.currentDiskBlockNumber
  · rw [if_pos full]
    unfold getBlockFromFreeList
    cases list : dm.freeList with
    | nil => exact Or.inl (if_pos rfl)
    | cons b rest =>
      have below := (inUse.free b (by rw [list]; exact List.mem_cons_self ..)).1
      refine Or.inr (Or.inl ⟨b, rest, rfl, ?_⟩)
      dsimp only
      rw [if_neg (ne_minusOne (by omega)), throughInt_small (by omega)]
  · rw [if_neg full]
    rcases Nat.lt_or_ge dm.currentDiskBlockNumber (2 ^ 31) with small | large
    · rw [throughInt_small small]
      exact Or.inr (Or.inr (Or.inl ⟨small, rfl⟩))
    · have same : dm.currentDiskBlockNumber = 2 ^ 31 := by omega
      rw [same]
      exact Or.inr (Or.inr (Or.inr ⟨rfl, rfl⟩))

/-- Block number 2^31 does not fit the `int` it is returned through, and the write fails. -/
theorem putBlock_large (data : Nat → UInt8) (size : dm.diskManagerBlockSize = blockSize) :
    dm.putBlock (throughInt (2 ^ 31)) data = none := by
  have offset : ¬u64 (throughInt (2 ^ 31) * blockSize) < 2 ^ 63 := by decide
  simp only [putBlock, size, if_neg offset]

theorem throughInt_large : throughInt (2 ^ 31) ≠ minusOne := by decide

/-- One block is written: there was no room, or the block was not in use before. -/
theorem InUse.write {no : Nat} {dm' : DiskManager} {buf : Nat → UInt8} (inUse : InUse dm uses)
    (written : dm.writeBlock buf = some (no, dm')) :
    InUse dm' (if no = minusOne then uses else uses.set no (some buf)) := by
  have cursor := inUse.cursor
  unfold writeBlock at written
  rcases findFreeBlock_cases inUse with full | ⟨b, rest, list, found⟩ | ⟨small, found⟩ | ⟨-, found⟩
  · rw [full] at written
    dsimp only at written
    rw [if_pos rfl] at written
    obtain ⟨rfl, rfl⟩ := Prod.mk.inj (Option.some.inj written)
    rw [if_pos rfl]
    exact inUse
  · have below := (inUse.free b (by rw [list]; exact List.mem_cons_self ..)).1
    have nodup := inUse.once
    rw [list] at nodup
    have small : b < 2 ^ 31 := by omega
    rw [found] at written
    dsimp only at written
    rw [if_neg (ne_minusOne small), putBlock_eq _ (by exact inUse.size) small, Option.map_some] at written
    obtain ⟨rfl, rfl⟩ := Prod.mk.inj (Option.some.inj written)
    rw [if_neg (ne_minusOne small)]
    exact inUse.put cursor below (Or.inl rfl) (by rw [list]; exact List.sublist_cons_self ..)
      (List.nodup_cons.mp nodup).1
  · rw [found] at written
    dsimp only at written
    rw [if_neg (ne_minusOne small), putBlock_eq _ (by exact inUse.size) small, Option.map_some] at written
    obtain ⟨rfl, rfl⟩ := Prod.mk.inj (Option.some.inj written)
    rw [if_neg (ne_minusOne small)]
    exact inUse.put (by omega) (Nat.lt_succ_self _) (Or.inr ⟨rfl, rfl⟩) (List.Sublist.refl _)
      (fun member => Nat.lt_irrefl _ (inUse.free _ member).1)
  · rw [found] at written
    dsimp only at written
    rw [if_neg throughInt_large, putBlock_large _ (by exact inUse.size)] at written
    exact (Option.some_ne_none _ written.symm).elim

theorem InUse.writeBulk {bufs : List (Nat → UInt8)} {numbers numbers' : Nat → Nat} {i : Nat} {dm' : DiskManager}
    (inUse : InUse dm uses) (written : dm.writeBlocksInBulk numbers bufs i = some (numbers', dm')) :
    InUse dm' (dm.bulkUses uses bufs) := by
  induction bufs generalizing dm uses numbers i with
  | nil =>
    obtain ⟨-, rfl⟩ := Prod.mk.inj (Option.some.inj written)
    exact inUse
  | cons buf rest ih =>
    rw [writeBlocksInBulk] at written
    rw [bulkUses]
    cases one : dm.writeBlock buf with
    | none =>
      rw [one] at written
      exact (Option.some_ne_none _ written.symm).elim
    | some done =>
      have step := inUse.write one
      rw [one, Option.bind_some] at written
      rw [Option.elim_some]
      by_cases full : done.1 = minusOne
      · rw [if_pos full] at written step ⊢
        obtain ⟨-, rfl⟩ := Prod.mk.inj (Option.some.inj written)
        exact step
      · rw [if_neg full] at written step ⊢
        exact ih step written

theorem InUse.release {b : Nat} {dm' : DiskManager} (inUse : InUse dm uses) (used : (uses b).isSome)
    (freed : dm.freeBlock b = some dm') : InUse dm' (uses.set b none) := by
  obtain ⟨data, here⟩ := Option.isSome_iff_exists.mp used
  have cursor := inUse.cursor
  obtain ⟨below, -⟩ := inUse.used here
  have notFree : b ∉ dm.freeList := by
    intro member
    rw [(inUse.free b member).2] at here
    cases here
  have put : InUse (dm.pwrite (b * blockSize) blockSize fun _ => dm.emptyString)
      (uses.set b (some fun _ => dm.emptyString)) :=
    inUse.put cursor below (Or.inl rfl) (List.Sublist.refl _) notFree
  rw [freeBlock, putBlock_eq _ inUse.size (by omega), Option.bind_some] at freed
  obtain ⟨dm1, dropped, rfl⟩ := Option.map_eq_some_iff.mp freed
  -- the prefetch cache plays no part in what is in use
  have last : ∀ prefetch buffers, InUse (({ (dm.pwrite (b * blockSize) blockSize fun _ => dm.emptyString) with
      prefetch := prefetch, buffers := buffers } : DiskManager).addBlockToFreeList b) (uses.set b none) := by
    intro prefetch buffers
    refine ⟨put.size, put.cursor, put.length, ?_, ?_, ?_⟩
    · intro c data' used'
      simp only [Uses.set] at used'
      split at used'
      · cases used'
      · next other =>
        have kept : (uses.set b (some fun _ => dm.emptyString)) c = some data' := by
          rw [Uses.set, if_neg other]
          exact used'
        exact put.used kept
    · rintro c (_ | ⟨_, member⟩)
      · exact ⟨below, if_pos rfl⟩
      · refine ⟨(inUse.free c member).1, ?_⟩
        rw [Uses.set]
        split
        · rfl
        · exact (inUse.free c member).2
    · exact List.nodup_cons.mpr ⟨notFree, inUse.once⟩
  unfold dropPrefetched at dropped
  split at dropped
  · obtain rfl := Option.some.inj dropped
    exact last _ _
  · split at dropped
    · obtain rfl := Option.some.inj dropped
      exact last _ _
    · exact (Option.some_ne_none _ dropped.symm).elim

theorem InUse.step {op : Op} {dm' : DiskManager} {uses' : Uses} (inUse : InUse dm uses)
    (run : op.step dm uses = some (dm', uses')) : InUse dm' uses' := by
  cases op with
  | writeBlock buf =>
    rw [Op.step] at run
    obtain ⟨done, written, same⟩ := Option.map_eq_some_iff.mp run
    obtain ⟨rfl, rfl⟩ := Prod.mk.inj same
    exact inUse.write written
  | writeBlocksInBulk numbers bufs =>
    rw [Op.step] at run
    obtain ⟨done, written, same⟩ := Option.map_eq_some_iff.mp run
    obtain ⟨rfl, rfl⟩ := Prod.mk.inj same
    exact inUse.writeBulk written
  | freeBlock b =>
    rw [Op.step] at run
    split at run
    · next used =>
      obtain ⟨dm1, freed, same⟩ := Option.map_eq_some_iff.mp run
      obtain ⟨rfl, rfl⟩ := Prod.mk.inj same
      exact inUse.release used freed
    · exact (Option.some_ne_none _ run.symm).elim
  | readBlock b =>
    rw [Op.step] at run
    obtain ⟨stored, -, same⟩ := Option.map_eq_some_iff.mp run
    obtain ⟨rfl, rfl⟩ := Prod.mk.inj same
    exact inUse
  | readBlocksWithPrefetch b =>
    rw [Op.step] at run
    obtain ⟨⟨stored, dm1⟩, read, same⟩ := Option.map_eq_some_iff.mp run
    obtain ⟨rfl, rfl⟩ := Prod.mk.inj same
    unfold readBlocksWithPrefetch at read
    dsimp only at read
    split at read
    · split at read
      · obtain ⟨-, rfl⟩ := Prod.mk.inj (Option.some.inj read)
        exact inUse
      · exact (Option.some_ne_none _ read.symm).elim
    · split at read
      · obtain ⟨-, rfl⟩ := Prod.mk.inj (Option.some.inj read)
        exact ⟨inUse.size, inUse.cursor, inUse.length, inUse.used, inUse.free, inUse.once⟩
      · exact (Option.some_ne_none _ read.symm).elim

theorem InUse.run {ops : List Op} {dm' : DiskManager} {uses' : Uses} (inUse : InUse dm uses)
    (run : runOps dm uses ops = some (dm', uses')) : InUse dm' uses' := by
  induction ops generalizing dm uses with
  | nil =>
    cases run
    exact inUse
  | cons op ops ih =>
    unfold runOps at run
    split at run
    · cases run
    · next dm1 uses1 first => exact ih (inUse.step first) run

theorem inUse_init (size : Nat) (fresh : Nat → UInt8) (emptyString : UInt8) :
    InUse (initializeDiskManager size blockSize fresh emptyString) (fun _ => none) :=
  ⟨rfl, Nat.zero_le _, by simp [initializeDiskManager], fun used => (Option.some_ne_none _ used.symm).elim,
    fun _ member => (List.not_mem_nil member).elim, List.nodup_nil⟩

/-- Block `b` was prefetched, its read buffer is still there, and the copy in it is what
the disk file has. -/
def Prefetched (dm : DiskManager) (b : Nat) : Prop :=
  ∃ buffer index block, dm.prefetch b = some (buffer, index) ∧ dm.buffers buffer = some block ∧
    ∀ o, o < blockSize → block (index * blockSize + o) = dm.file (b * blockSize + o)

theorem InUse.readBlock_eq {b : Nat} {data : Nat → UInt8} (inUse : InUse dm uses) (used : uses b = some data) :
    dm.readBlock b = some fun o => if o < blockSize then some (data o) else none := by
  obtain ⟨below, bytes⟩ := inUse.used used
  have room := le_trans (mul_block_lt below) inUse.length
  simp only [readBlock, inUse.size]
  rw [if_pos room]
  congr 1
  funext o
  by_cases inside : o < blockSize
  · rw [if_pos inside, if_pos inside, bytes o inside]
  · rw [if_neg inside, if_neg inside]

/-- A block that was not prefetched can be read, but the read also stores a byte just
behind the buffer. -/
theorem InUse.read_cold {b : Nat} {data : Nat → UInt8} (inUse : InUse dm uses) (used : uses b = some data)
    (cold : dm.prefetch b = none) :
    ∃ dm', dm.readBlocksWithPrefetch b = some
      (fun o => if o < blockSize then some (data o) else if o = blockSize then some 0 else none, dm') := by
  obtain ⟨below, bytes⟩ := inUse.used used
  have cursor := inUse.cursor
  have count : dm.maxPrefetch b ≤ dm.currentDiskBlockNumber - b ∧ 0 < dm.maxPrefetch b := by
    unfold maxPrefetch usub readPrefetchBlockCount
    split <;> omega
  have room : b * blockSize + dm.maxPrefetch b * blockSize ≤ dm.fileLen := by
    rw [← Nat.add_mul]
    exact le_trans (Nat.mul_le_mul_right _ (by omega)) inUse.length
  have same : (fun o => if o < blockSize then some (if o < dm.maxPrefetch b * blockSize then dm.file (b * blockSize + o)
      else dm.fresh o) else if o = blockSize then some 0 else none) =
      fun o => if o < blockSize then some (data o) else if o = blockSize then some 0 else none := by
    funext o
    by_cases inside : o < blockSize
    · have first : o < dm.maxPrefetch b * blockSize := lt_of_lt_of_le inside (Nat.le_mul_of_pos_left _ count.2)
      rw [if_pos inside, if_pos inside, if_pos first, bytes o inside]
    · rw [if_neg inside, if_neg inside]
  simp only [readBlocksWithPrefetch, cold, inUse.size, if_pos room]
  rw [same]
  exact ⟨_, rfl⟩

theorem InUse.agree_iff {b : Nat} {data : Nat → UInt8} (inUse : InUse dm uses) (used : uses b = some data) :
    (dm.readBlocksWithPrefetch b).map Prod.fst = dm.readBlock b ↔ dm.Prefetched b := by
  rw [inUse.readBlock_eq used]
  cases cache : dm.prefetch b with
  | none =>
    obtain ⟨dm', read⟩ := inUse.read_cold used cache
    refine iff_of_false (fun agree => ?_) (fun ⟨buffer, index, block, entry, _⟩ => ?_)
    · rw [read, Option.map_some] at agree
      have byte := congrFun (Option.some.inj agree) blockSize
      simp at byte
    · rw [cache] at entry
      cases entry
  | some entry =>
    obtain ⟨buffer, index⟩ := entry
    obtain ⟨-, bytes⟩ := inUse.used used
    simp only [readBlocksWithPrefetch, cache, inUse.size]
    cases there : dm.buffers buffer with
    | none =>
      refine iff_of_false (fun agree => by cases agree) ?_
      rintro ⟨buffer', index', block, entry, present, -⟩
      rw [cache] at entry
      cases entry
      rw [there] at present
      cases present
    | some block =>
      simp only [Option.map_some, Option.some.injEq]
      constructor
      · intro agree
        refine ⟨buffer, index, block, cache, there, fun o inside => ?_⟩
        have byte := congrFun agree o
        simp only [if_pos inside, Option.some.injEq] at byte
        rw [byte, bytes o inside]
      · rintro ⟨buffer', index', block', entry, present, same⟩
        rw [cache] at entry
        cases entry
        rw [there] at present
        cases present
        funext o
        by_cases inside : o < blockSize
        · rw [if_pos inside, if_pos inside, same o inside, bytes o inside]
        · rw [if_neg inside, if_neg inside]

/-- The last bytes written to a block in use, and the one that a prefetched read gives. -/
def lastAndRead (diskSize : Nat) (ops : List Op) (b o : Nat) : Option (Option UInt8 × Option UInt8) :=
  (runOps (initializeDiskManager diskSize blockSize (fun _ => 0) 7) (fun _ => none) ops).bind fun (dm, uses) =>
    (dm.readBlocksWithPrefetch b).map fun read => ((uses b).map (· o), read.1 o)

end DiskManager
end Bpfs
