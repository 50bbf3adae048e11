import Bpfs.Lib.Wp
import Bpfs.Lib.Store
import Bpfs.Bitmap
import Bpfs.Disk

/-! The state of the mounted file system and the block layer of the MODE_BPFS
build: byte-addressed NVM, block allocation, blocks fetched from disk and the
copy-on-write primitives. Every NVM store is also recorded, in program order. -/

namespace Bpfs
open Lib

def blocknosPerIndir : Nat := 512
def blocknoInvalid : Nat := 0
def blocknoSuper : Nat := 1
def blocknoFirstAlloc : Nat := 3
def bpfsEof : Nat := 2 ^ 64 - 1

/-- The bit that marks a leaf pointer as a disk block number. -/
def diskFlag : Nat := 2 ^ 63

inductive Commit where
  | none
  | copy
  | atomic
  | free
  deriving DecidableEq, Repr

/-- The function whose assertion failed. -/
inductive Site where
  | bitmapFree | bitmapAbort | bitmapCommit | bitmapSet | allocBlock | setBlock | freeBlock | getBlock | getBlockFromDisk
  | readBlocksWithPrefetch | writeBlock | writeBlocksInBulk | evictToDisk | cowBlock | cowBlockHole | haSet | treeChangeHeight
  | truncateBlockZeroLeaf | truncateBlockZeroIndir | truncateBlockZero
  | crawlLeaf | crawlHole | crawlIndir | crawlIndirCow | crawlBlocknos | crawlTreeRef | crawlInodes
  | callbackCrawlInode | callbackCrawlData2Tree | callbackCrawlData2 | crawlData2 | getInodeOffset
  | callbackWrite | callbackSetTime | callbackSetattr | callbackSetDirentIno | treeNblocks
  | bpfsStat | fuseRead | fuseWrite | fuseSetattr | b2fMode | f2bMode | bulkEvict
  deriving DecidableEq, Repr

/-- How a call can stop: with `-ENOSPC`, or with the whole process. -/
inductive Err where
  | enospc
  | assertion (site : Site)
  | sigfpe
  | sigsegv
  | outOfBounds
  | stackOverflow
  deriving DecidableEq, Repr

/-- What a `char *block` points at: the shared block of zeros or a block of NVM. -/
inductive BlockPtr where
  | zeroBlock
  | bpram (no : Nat)
  deriving DecidableEq, Repr

/-- One element of the vector that `callback_read` fills. -/
structure Iovec where
  index : Nat
  base : BlockPtr
  off : Nat
  len : Nat
  deriving DecidableEq, Repr

/-- A call into the anti-cache manager. -/
inductive CacheCall where
  | access (blockno : Nat)
  | deleteLruEntry (blockno : Nat)
  deriving DecidableEq, Repr

structure Fs where
  bpram : Mem
  blockAlloc : Bitmap
  inodeAlloc : Bitmap
  disk : DiskManager
  indirMapping : Nat → Nat
  currentIndirPointer : Nat
  treeNblocksNblocks : Nat
  /-- the `iovec` array of `fuse_read`, as the list of its assignments -/
  iov : List Iovec
  /-- the `inode` variable of `get_inode`: block and offset -/
  inode : BlockPtr × Nat
  /-- the NVM stores issued so far -/
  writes : List Write
  /-- how often `alloc_block` found no free block -/
  allocFailures : Nat
  cacheCalls : List CacheCall
  /-- the indices at which `indir_mapping` was accessed -/
  mappingAccesses : List Nat

abbrev M := EStateM Err Fs

def check (site : Site) (c : Prop) [Decidable c] : M Unit :=
  if c then pure () else throw (.assertion site)

/-! ### NVM -/

def storeNvm (w : Write) : M Unit :=
  modify fun s => { s with bpram := s.bpram.apply w, writes := s.writes ++ [w] }

/-- An aligned store of one 64-bit field. -/
def storeWord (blk off value : Nat) : M Unit :=
  storeNvm ⟨true, blk, off, 8, leByte value⟩

/-- A store of one 32-bit field. -/
def storeHalf (blk off value : Nat) : M Unit :=
  storeNvm ⟨true, blk, off, 4, leByte value⟩

def memcpy (blk off len : Nat) (src : Nat → UInt8) : M Unit :=
  storeNvm ⟨false, blk, off, len, src⟩

def memset (blk off len : Nat) : M Unit :=
  storeNvm ⟨false, blk, off, len, fun _ => 0⟩

def wordAt (m : Mem) (blk off : Nat) : Nat := leValue (fun i => m blk (off + i)) 8

def halfAt (m : Mem) (blk off : Nat) : Nat := leValue (fun i => m blk (off + i)) 4

/-- `indir->addr[no]` for the indirect block `blk`. -/
def addrAt (m : Mem) (blk no : Nat) : Nat := wordAt m blk (8 * no)

/-- A read of `indir->addr[no]`; past the last entry there is memory that belongs to something else. -/
def loadAddr (blk no : Nat) : M Nat :=
  if blocknosPerIndir ≤ no then throw .outOfBounds
  else do
    let s ← get
    pure (addrAt s.bpram blk no)

def storeAddr (blk no value : Nat) : M Unit := storeWord blk (8 * no) value

/-- `get_super()->nblocks`. -/
def superNblocks (m : Mem) : Nat := wordAt m blocknoSuper 24

/-- `get_super()->inode_root_addr`. -/
def superInodeRootAddr (m : Mem) : Nat := wordAt m blocknoSuper 32

/-! ### Block allocation -/

/-- `alloc_block`: a block number, or `BPFS_BLOCKNO_INVALID`. -/
def allocBlock : M Nat := do
  let s ← get
  let (no, bm) := s.blockAlloc.alloc
  if no = s.blockAlloc.ntotal then
    modify fun s => { s with blockAlloc := bm, allocFailures := s.allocFailures + 1 }
    pure blocknoInvalid
  else
    modify fun s => { s with blockAlloc := bm }
    check .allocBlock (blocknoFirstAlloc ≤ no + 1)
    pure (no + 1)

/-- `free_block`. A disk block number is ignored. -/
def freeBlock (blockno : Nat) : M Unit := do
  if blockno.testBit 63 then pure ()
  else
    check .freeBlock (blockno ≠ blocknoInvalid)
    check .freeBlock (blocknoFirstAlloc ≤ blockno)
    let s ← get
    match s.blockAlloc.free (blockno - 1) with
    | none => throw (.assertion .bitmapFree)
    | some bm =>
        modify fun s => { s with blockAlloc := bm, cacheCalls := s.cacheCalls ++ [.deleteLruEntry blockno] }

/-- `anti_cache_manager_access`. -/
def antiCacheManagerAccess (blockno : Nat) : M Unit :=
  modify fun s => { s with cacheCalls := s.cacheCalls ++ [.access blockno] }

/-- The first index of the indirect block that holds `value`, among `n` from `j` on. -/
def findAddr (m : Mem) (blk value : Nat) : Nat → Nat → Option Nat
  | 0, _ => none
  | n + 1, j => if addrAt m blk j = value then some j else findAddr m blk value n (j + 1)

/-- `readBlocksWithPrefetch` into a fresh buffer. -/
def readDisk (blockNumber : Nat) : M (Nat → UInt8) := do
  let s ← get
  match s.disk.load blockNumber with
  | none => throw (.assertion .readBlocksWithPrefetch)
  | some (buf, dm) =>
      modify fun s => { s with disk := dm }
      pure buf

/-- Copy a block read from disk to `newBlock` and put that number in the indirect block. -/
def installBlock (site : Site) (blockno newBlock : Nat) (buf : Nat → UInt8) (indir : M Nat) : M Nat := do
  memcpy newBlock 0 blockSize buf
  let indir ← indir
  let s ← get
  match findAddr s.bpram indir blockno blocknosPerIndir 0 with
  | none => throw (.assertion site)
  | some j =>
      storeAddr indir j newBlock
      pure newBlock

/-- The common part of `get_block_from_disk` and `get_block`: read the disk block and
install it in a new NVM block. Neither caller looks at whether `alloc_block` succeeded:
block 0 is then the memory just below `bpram`. -/
def fetchBlock (site : Site) (blockno : Nat) (indir : M Nat) : M Nat := do
  let buf ← readDisk (blockno ^^^ diskFlag)
  let newBlock ← allocBlock
  installBlock site blockno newBlock buf indir

/-- `get_block` for a block number that is not a disk block number. -/
def getNvmBlock (blockno : Nat) : M Nat := do
  check .getBlock (blockno ≠ blocknoInvalid)
  pure blockno

/-- `get_block`, as the number of the NVM block it points at. For a disk block
number it reads the block back in, looking for its parent in `current_indir_pointer`. -/
def getBlock (blockno : Nat) : M Nat := do
  check .getBlock (blockno ≠ blocknoInvalid)
  if blockno.testBit 63 then
    let s ← get
    let newBlock ← fetchBlock .getBlock blockno (do
      if s.currentIndirPointer.testBit 63 then throw .stackOverflow
      getNvmBlock s.currentIndirPointer)
    antiCacheManagerAccess newBlock
    pure newBlock
  else pure blockno

/-- `get_block_from_disk`. -/
def getBlockFromDisk (blockno indirPointer : Nat) : M Nat :=
  if blockno.testBit 63 then fetchBlock .getBlockFromDisk blockno (getBlock indirPointer)
  else pure minusOne

/-! ### Copy on write -/

/-- `cow_block`. -/
def cowBlock (oldBlockno off size valid : Nat) : M Nat := do
  check .cowBlock (off + size ≤ blockSize)
  check .cowBlock (valid ≤ blockSize)
  let newBlockno ← allocBlock
  if newBlockno = blocknoInvalid then throw .enospc
  let oldBlock ← getBlock oldBlockno
  let newBlock ← getBlock newBlockno
  let s ← get
  memcpy newBlock 0 off (s.bpram oldBlock)
  if off + size < valid then
    memcpy newBlock (off + size) (valid - (off + size)) (fun i => s.bpram oldBlock (off + size + i))
  freeBlock oldBlockno
  pure newBlockno

/-- `cow_block_hole`. -/
def cowBlockHole (off size valid : Nat) : M Nat := do
  check .cowBlockHole (off + size ≤ blockSize)
  check .cowBlockHole (valid ≤ blockSize)
  let blockno ← allocBlock
  if blockno = blocknoInvalid then throw .enospc
  let block ← getBlock blockno
  memset block 0 off
  if off + size < valid then memset block (off + size) (valid - (off + size))
  pure blockno

/-- `cow_block_entire`. -/
def cowBlockEntire (oldBlockno : Nat) : M Nat := do
  let newBlockno ← allocBlock
  if newBlockno = blocknoInvalid then throw .enospc
  let oldBlock ← getBlock oldBlockno
  let newBlock ← getBlock newBlockno
  let s ← get
  memcpy newBlock 0 blockSize (s.bpram oldBlock)
  freeBlock oldBlockno
  pure newBlockno

end Bpfs
