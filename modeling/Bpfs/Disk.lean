import Bpfs.Lib.LittleEndian

/-! The disk manager: the disk file, the allocation cursor, the list of freed
disk blocks and the cache of prefetched blocks. -/

namespace Bpfs
open Lib

/-- Arithmetic on `uint64_t`, where it can wrap. -/
def u64 (n : Nat) : Nat := n % 2 ^ 64

def usub (a b : Nat) : Nat := (a + 2 ^ 64 - b) % 2 ^ 64

/-- A 64-bit value returned through an `int` and widened again. -/
def throughInt (n : Nat) : Nat :=
  if n % 2 ^ 32 < 2 ^ 31 then n % 2 ^ 32 else n % 2 ^ 32 + (2 ^ 64 - 2 ^ 32)

/-- The value `-1` of an unsigned 64-bit variable. -/
def minusOne : Nat := 2 ^ 64 - 1

/-- Bytes in a block, in NVM and on disk. -/
def blockSize : Nat := 4096

def readPrefetchBlockCount : Nat := 2304

structure DiskManager where
  file : Nat → UInt8
  fileLen : Nat
  totalBlockCount : Nat
  currentDiskBlockNumber : Nat
  diskManagerBlockSize : Nat
  freeList : List Nat
  /-- `prefetch_hash_map`: the read buffer that has the block, and the block's index in it -/
  prefetch : Nat → Option (Nat × Nat)
  /-- the read buffers that have not been freed, in the order of their allocation -/
  buffers : Nat → Option (Nat → UInt8)
  nbuffers : Nat
  /-- what `malloc` leaves in a fresh buffer -/
  fresh : Nat → UInt8
  /-- the low byte of the address of an empty string literal -/
  emptyString : UInt8

namespace DiskManager

/-- `initializeDiskManager` on an empty disk file. -/
def initializeDiskManager (size blockSize : Nat) (fresh : Nat → UInt8) (emptyString : UInt8) : DiskManager :=
  ⟨fun _ => 0, 0, size / blockSize, 0, blockSize, [], fun _ => none, fun _ => none, 0, fresh, emptyString⟩

def pwrite (dm : DiskManager) (offset len : Nat) (data : Nat → UInt8) : DiskManager :=
  { dm with
    file := fun k => if offset ≤ k ∧ k < offset + len then data (k - offset)
      else if k < dm.fileLen then dm.file k else 0
    fileLen := max dm.fileLen (offset + len) }

/-- Write one block of the disk file; the call fails for an offset that is negative as a
signed number, and so does the assertion on its result. -/
def putBlock (dm : DiskManager) (blockNumber : Nat) (data : Nat → UInt8) : Option DiskManager :=
  let offset := u64 (blockNumber * dm.diskManagerBlockSize)
  if offset < 2 ^ 63 then some (dm.pwrite offset dm.diskManagerBlockSize data) else none

/-- Enter the blocks of a new read buffer in the hash map; `lru_hash_map_insert` keeps an
entry that is already there. -/
def cacheBlocks (dm : DiskManager) (blockNumber count : Nat) (tempbuf : Nat → UInt8) : DiskManager :=
  { dm with
    prefetch := fun k =>
      match dm.prefetch k with
      | some entry => some entry
      | none => if blockNumber ≤ k ∧ k < blockNumber + count then some (dm.nbuffers, k - blockNumber) else none
    buffers := fun k => if k = dm.nbuffers then some tempbuf else dm.buffers k
    nbuffers := dm.nbuffers + 1 }

/-- How many blocks one read fetches. -/
def maxPrefetch (dm : DiskManager) (blockNumber : Nat) : Nat :=
  if usub dm.currentDiskBlockNumber 1 < blockNumber + readPrefetchBlockCount - 1 then
    usub dm.currentDiskBlockNumber blockNumber
  else readPrefetchBlockCount

/-- `readBlocksWithPrefetch`: the bytes it stores in `buf`, by offset. There is no answer
when the block's read buffer was freed, or when `pread` comes back short and the assertion
on it fails. -/
def readBlocksWithPrefetch (dm : DiskManager) (blockNumber : Nat) : Option ((Nat → Option UInt8) × DiskManager) :=
  let size := dm.diskManagerBlockSize
  match dm.prefetch blockNumber with
  | some (buffer, index) =>
      match dm.buffers buffer with
      | some block => some (fun o => if o < size then some (block (index * size + o)) else none, dm)
      | none => none
  | none =>
      let count := dm.maxPrefetch blockNumber
      if blockNumber * size + count * size ≤ dm.fileLen then
        let tempbuf := fun k => if k < count * size then dm.file (blockNumber * size + k) else dm.fresh k
        some (fun o => if o < size then some (tempbuf o) else if o = size then some 0 else none,
          dm.cacheBlocks blockNumber count tempbuf)
      else none

/-- `readBlocksWithPrefetch` into a buffer fresh from `malloc`. -/
def load (dm : DiskManager) (blockNumber : Nat) : Option ((Nat → UInt8) × DiskManager) :=
  (dm.readBlocksWithPrefetch blockNumber).map fun (stored, dm') => (fun o => (stored o).getD (dm.fresh o), dm')

/-- `readBlock`: the bytes it stores in `buf`, unless `pread` comes back short. -/
def readBlock (dm : DiskManager) (blockNumber : Nat) : Option (Nat → Option UInt8) :=
  let size := dm.diskManagerBlockSize
  if blockNumber * size + size ≤ dm.fileLen then
    some (fun o => if o < size then some (dm.file (blockNumber * size + o)) else none)
  else none

/-- `getBlockFromFreeList`. -/
def getBlockFromFreeList (dm : DiskManager) : Nat × DiskManager :=
  match dm.freeList with
  | [] => (minusOne, dm)
  | no :: rest => (no, { dm with freeList := rest })

/-- `findFreeBlock`. -/
def findFreeBlock (dm : DiskManager) : Nat × DiskManager :=
  if usub dm.totalBlockCount 1 ≤ dm.currentDiskBlockNumber then
    let found := dm.getBlockFromFreeList
    if found.1 = minusOne then found else (throughInt found.1, found.2)
  else (throughInt dm.currentDiskBlockNumber,
    { dm with currentDiskBlockNumber := dm.currentDiskBlockNumber + 1 })

/-- `writeBlock`: the number of the disk block, or -1. -/
def writeBlock (dm : DiskManager) (buf : Nat → UInt8) : Option (Nat × DiskManager) :=
  let found := dm.findFreeBlock
  if found.1 = minusOne then some found
  else (found.2.putBlock found.1 buf).map fun dm => (found.1, dm)

/-- `writeBlocksInBulk`: `numbers` is the caller's array, filled up to the first block for
which no disk block is free. One round of the loop looks for a free block and writes to it
as `writeBlock` does. -/
def writeBlocksInBulk (dm : DiskManager) (numbers : Nat → Nat) :
    List (Nat → UInt8) → Nat → Option ((Nat → Nat) × DiskManager)
  | [], _ => some (numbers, dm)
  | buf :: rest, i => (dm.writeBlock buf).bind fun done =>
      if done.1 = minusOne then some (numbers, done.2)
      else done.2.writeBlocksInBulk (fun k => if k = i then done.1 else numbers k) rest (i + 1)

/-- `addBlockToFreeList`. -/
def addBlockToFreeList (dm : DiskManager) (blockNumber : Nat) : DiskManager :=
  { dm with freeList := blockNumber :: dm.freeList }

/-- The part of `freeBlock` that forgets a prefetched copy. `free` only takes a pointer
that `malloc` returned: the first block of a read buffer, and then the whole buffer goes. -/
def dropPrefetched (dm : DiskManager) (blockNumber : Nat) : Option DiskManager :=
  match dm.prefetch blockNumber with
  | none => some dm
  | some (buffer, index) =>
      if index = 0 ∧ (dm.buffers buffer).isSome then
        some { dm with
          prefetch := fun k => if k = blockNumber then none else dm.prefetch k
          buffers := fun k => if k = buffer then none else dm.buffers k }
      else none

/-- `freeBlock`. -/
def freeBlock (dm : DiskManager) (blockNumber : Nat) : Option DiskManager :=
  (dm.putBlock blockNumber fun _ => dm.emptyString).bind fun dm =>
    (dm.dropPrefetched blockNumber).map fun dm => dm.addBlockToFreeList blockNumber

end DiskManager

end Bpfs
