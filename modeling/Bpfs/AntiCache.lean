import Bpfs.State

/-! Eviction of leaf blocks from NVM to disk. -/

namespace Bpfs
open Lib

/-- `indir_mapping[blockNum]`. -/
def loadMapping (blockNum : Nat) : M Nat := do
  modify fun s => { s with mappingAccesses := s.mappingAccesses ++ [blockNum] }
  let s ← get
  pure (s.indirMapping blockNum)

/-- The part of `anti_cache_manager_evict_to_disk` for a block with a known parent. -/
def moveToDisk (blockNum : Nat) : M Unit := do
  let buf ← getBlock blockNum
  let s ← get
  match s.disk.writeBlock (s.bpram buf) with
  | none => throw (.assertion .writeBlock)
  | some (newpos, disk) =>
      modify fun s => { s with disk := disk }
      check .evictToDisk ((newpos ||| diskFlag) ^^^ diskFlag = newpos)
      let parent ← loadMapping blockNum
      let indir ← getBlock parent
      let s ← get
      match findAddr s.bpram indir blockNum blocknosPerIndir 0 with
      | some j =>
          storeAddr indir j (newpos ||| diskFlag)
          freeBlock blockNum
      | none => pure ()

/-- `anti_cache_manager_evict_to_disk`. The block number is passed as an `int`, and a negative
one indexes before the start of `indir_mapping`. -/
def antiCacheManagerEvictToDisk (blockno : Nat) : M Unit := do
  let blockNum := throughInt blockno
  let parent ← loadMapping blockNum
  if 2 ^ 31 ≤ blockNum then throw .sigsegv
  if parent ≠ 0 then moveToDisk blockNum

/-- The blocks are evicted one after the other. -/
def evictEach : List Nat → M Unit
  | [] => pure ()
  | blockNum :: rest => do
      antiCacheManagerEvictToDisk blockNum
      evictEach rest

/-- The first loop of `anti_cache_manager_bulk_evict_to_disk`: the data of all blocks. -/
def collectBlocks : List Nat → M (List (Nat → UInt8))
  | [] => pure []
  | blockNum :: rest => do
      let parent ← loadMapping blockNum
      check .bulkEvict (parent ≠ 0)
      let buf ← getBlock blockNum
      let s ← get
      let bufs ← collectBlocks rest
      pure (s.bpram buf :: bufs)

/-- The last loop of `anti_cache_manager_bulk_evict_to_disk`, from index `i` on: put the
disk block numbers in the parents. -/
def swapPointers (diskBlockNumArr : Nat → Nat) : List Nat → Nat → M Unit
  | [], _ => pure ()
  | blockNum :: rest, i => do
      let parent ← loadMapping blockNum
      let indir ← getBlock parent
      let s ← get
      match findAddr s.bpram indir blockNum blocknosPerIndir 0 with
      | some j => storeAddr indir j (diskBlockNumArr i ||| diskFlag)
      | none => pure ()
      swapPointers diskBlockNumArr rest (i + 1)

/-- `anti_cache_manager_bulk_evict_to_disk`; `garbage` is what `malloc` leaves in the
array of disk block numbers. -/
def antiCacheManagerBulkEvictToDisk (blockNumArr : List Nat) (garbage : Nat → Nat) : M Unit := do
  let bufs ← collectBlocks blockNumArr
  let s ← get
  match s.disk.writeBlocksInBulk garbage bufs 0 with
  | none => throw (.assertion .writeBlocksInBulk)
  | some (diskBlockNumArr, disk) =>
      modify fun s => { s with disk := disk }
      swapPointers diskBlockNumArr blockNumArr 0

end Bpfs
