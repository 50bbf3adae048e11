import Bpfs.InodeCrawl
import Bpfs.Dirent

/-! The file operations of the FUSE layer (read, write, setattr, stat), the pointer
switch of rename, and the crawl callbacks they use. -/

namespace Bpfs
open Lib

/-! ### Commit and abort -/

/-- `bpfs_abort`. -/
def bpfsAbort : M Unit := do
  let s ← get
  match s.blockAlloc.abort, s.inodeAlloc.abort with
  | some blocks, some inodes => modify fun s => { s with blockAlloc := blocks, inodeAlloc := inodes }
  | _, _ => throw (.assertion .bitmapAbort)

/-- `bpfs_commit`. -/
def bpfsCommit : M Unit := do
  let s ← get
  match s.blockAlloc.commit, s.inodeAlloc.commit with
  | some blocks, some inodes => modify fun s => { s with blockAlloc := blocks, inodeAlloc := inodes }
  | _, _ => throw (.assertion .bitmapCommit)

/-- The answer to a request; `none` stands for `-ENOSPC`. -/
def orEnospc {α : Type} (x : M α) : M (Option α) := fun s =>
  match x s with
  | .ok a t => .ok (some a) t
  | .error .enospc t => .ok none t
  | .error e t => .error e t

/-! ### Inodes -/

/-- The block a pointer into NVM is in; the block of zeros is write-protected. -/
def writable : BlockPtr → M Nat
  | .zeroBlock => throw .sigsegv
  | .bpram no => pure no

def ptrHalf (m : Mem) (p : BlockPtr) (off : Nat) : Nat := leValue (fun i => p.contents m (off + i)) 4

/-- `callback_get_inode`. -/
def callbackGetInode : CrawlCallbackInode := fun block off _ blockno => do
  modify fun s => { s with inode := (block, off) }
  pure (0, blockno)

/-- `get_inode`. -/
def getInode (ino : Nat) : M (BlockPtr × Nat) := do
  let _ ← crawlInode ino .none callbackGetInode
  let s ← get
  pure s.inode

/-- The callbacks that set one time stamp of an inode. -/
def callbackSetTime (field newTime : Nat) : CrawlCallbackInode := fun block off commit blockno => do
  check .callbackSetTime (commit ≠ .none)
  let (block, newBlockno) ←
    if commit = .copy then do
      let newBlockno ← cowBlockEntire blockno
      let block ← getBlock newBlockno
      pure (BlockPtr.bpram block, newBlockno)
    else pure (block, blockno)
  let no ← writable block
  storeHalf no (off + field) newTime
  pure (0, newBlockno)

/-- `callback_set_atime`. -/
def callbackSetAtime (newTime : Nat) : CrawlCallbackInode := callbackSetTime 48 newTime

/-- `callback_set_mtime`. -/
def callbackSetMtime (newTime : Nat) : CrawlCallbackInode := callbackSetTime 56 newTime

/-! ### Read -/

/-- Tell the anti-cache manager about an access to a block that has a known parent. -/
def noteAccess (blockno : Nat) : M Unit := do
  let s ← get
  if blockno ≤ superNblocks s.bpram then
    modify fun s => { s with mappingAccesses := s.mappingAccesses ++ [blockno] }
    if s.indirMapping blockno ≠ 0 then antiCacheManagerAccess blockno

/-- `callback_read`. -/
def callbackRead : CrawlCallback := fun blockoff block off size _ crawlStart _ blockno => do
  noteAccess blockno
  modify fun s => { s with iov := s.iov ++ [⟨blockoff - crawlStart / blockSize, block, off, size⟩] }
  pure (0, blockno)

/-- The bytes one element of the vector stands for. -/
def Iovec.bytes (m : Mem) (e : Iovec) : List UInt8 :=
  (List.range e.len).map (fun i => e.base.contents m (e.off + i))

/-- What `fuse_reply_iov` sends for a vector of `nblocks` elements, of which the last
assignment to each counts. -/
def replyIov (m : Mem) (iov : List Iovec) (nblocks : Nat) : List UInt8 :=
  (List.range nblocks).flatMap fun i =>
    match iov.reverse.find? (fun e => e.index = i) with
    | some e => e.bytes m
    | none => []

/-- `BPFS_S_ISREG`. -/
def isReg (mode : Nat) : Prop := mode % 65536 / 4096 = 8

instance (mode : Nat) : Decidable (isReg mode) := by unfold isReg; infer_instance

/-- `fuse_read` when `calloc` succeeds: the bytes of the reply, or the error reply. -/
def fuseRead (ino size off timeNow : Nat) : M (Option (List UInt8)) := do
  let (block, inodeOff) ← getInode ino
  let s ← get
  let nbytes := rootNbytes s.bpram (rootOfInode block inodeOff)
  check .fuseRead (ptrHalf s.bpram block (inodeOff + 20) ≠ 0)
  check .fuseRead (isReg (ptrHalf s.bpram block (inodeOff + 16)))
  if nbytes ≤ off then
    bpfsAbort
    pure (some [])
  else
    let size := min size (nbytes - off)
    let firstBlockoff := off / blockSize
    let lastBlockoff := if off + size ≠ 0 then (off + size - 1) / blockSize else 0
    let nblocks := lastBlockoff - firstBlockoff + 1
    modify fun s => { s with iov := [] }
    let _ ← insist .fuseRead (crawlData ino off size .none callbackRead)
    match ← orEnospc (crawlInode ino .atomic (callbackSetAtime timeNow)) with
    | none =>
        bpfsAbort
        pure none
    | some _ =>
        bpfsCommit
        let s ← get
        pure (some (replyIov s.bpram s.iov nblocks))

/-! ### Write -/

def atomicSize : Nat := 8

/-- `can_atomic_write`; for an empty range the unsigned `last - offset` is huge. -/
def canAtomicWrite (offset size : Nat) : Prop :=
  0 < size ∧ size - 1 < atomicSize ∧ offset % atomicSize ≤ (offset + size - 1) % atomicSize

instance (offset size : Nat) : Decidable (canAtomicWrite offset size) := by
  unfold canAtomicWrite; infer_instance

/-- `callback_write`. -/
def callbackWrite (buf : Nat → UInt8) : CrawlCallback :=
  fun blockoff block off size valid crawlStart commit prevBlockno => do
    let bufOffset := blockoff * blockSize + off - crawlStart
    check .callbackWrite (commit ≠ .none)
    let (block, newBlockno) ←
      if commit = .free ∨ (commit = .atomic ∧ (canAtomicWrite off size ∨ valid ≤ off)) then
        pure (block, prevBlockno)
      else do
        let newno ← cowBlock prevBlockno off size valid
        let block ← getBlock newno
        pure (BlockPtr.bpram block, newno)
    let dst ← writable block
    storeNvm ⟨canAtomicWrite off size, dst, off, size, fun i => buf (bufOffset + i)⟩
    noteAccess newBlockno
    pure (0, newBlockno)

/-- `fuse_write`: the size of the reply, or the error reply. -/
def fuseWrite (ino : Nat) (buf : Nat → UInt8) (size off timeNow : Nat) : M (Option Nat) := do
  let (block, inodeOff) ← getInode ino
  let s ← get
  check .fuseWrite (ptrHalf s.bpram block (inodeOff + 20) ≠ 0)
  match ← orEnospc (crawlData ino off size .atomic (callbackWrite buf)) with
  | none =>
      bpfsAbort
      pure none
  | some _ =>
      let _ ← insist .fuseWrite (crawlInode ino .atomic (callbackSetMtime timeNow))
      bpfsCommit
      pure (some size)

/-! ### Attributes -/

/-- `callback_tree_nblocks`. -/
def callbackTreeNblocks : CrawlBlocknoCallback := fun blockno leaf => do
  check .treeNblocks (blockno ≠ blocknoInvalid)
  if leaf then modify fun s => { s with treeNblocksNblocks := s.treeNblocksNblocks + 1 }

/-- `tree_nblocks`. -/
def treeNblocks (root : Root) : M Nat := do
  let s ← get
  check .treeNblocks (s.treeNblocksNblocks = 0)
  crawlBlocknos root 0 bpfsEof callbackTreeNblocks
  let s ← get
  modify fun s => { s with treeNblocksNblocks := 0 }
  pure s.treeNblocksNblocks

structure Stat where
  ino : Nat
  nlink : Nat
  mode : Nat
  uid : Nat
  gid : Nat
  size : Nat
  blksize : Nat
  blocks : Nat
  atime : Nat
  mtime : Nat
  ctime : Nat
  deriving DecidableEq, Repr

/-- The two mode conversions: both sides use the same bits, and an unknown file type
fails the assertion. -/
def convertMode (site : Site) (mode : Nat) : M Nat := do
  check site (mode % 65536 / 4096 ∈ [12, 10, 8, 6, 4, 2, 1])
  pure (mode % 65536)

/-- `b2f_mode`. -/
def b2fMode (bmode : Nat) : M Nat := convertMode .b2fMode bmode

/-- `f2b_mode`. -/
def f2bMode (fmode : Nat) : M Nat := convertMode .f2bMode fmode

/-- `bpfs_stat`. -/
def bpfsStat (ino : Nat) : M Stat := do
  let (block, off) ← getInode ino
  let s ← get
  let field := fun n => ptrHalf s.bpram block (off + n)
  check .bpfsStat (field 20 ≠ 0)
  let mode ← b2fMode (field 16)
  let nblocks ← treeNblocks (rootOfInode block off)
  let t ← get
  let time := fun n => ptrHalf t.bpram block (off + n)
  pure ⟨ino, field 20, mode, field 8, field 12, rootNbytes s.bpram (rootOfInode block off), blockSize,
    u64 (nblocks * blockSize) / 512, time 48, time 56, time 52⟩

/-- `callback_truncate_block_free`. -/
def callbackTruncateBlockFree : CrawlBlocknoCallback := fun blockno _ => freeBlock blockno

/-- `truncate_block_free`. -/
def truncateBlockFree (root : Root) (newSize : Nat) : M Unit := do
  let off := u64 (newSize + blockSize - 1) / blockSize * blockSize
  let s ← get
  if off < rootNbytes s.bpram root then crawlBlocknos root off bpfsEof callbackTruncateBlockFree

/-- The attributes that a `setattr` request sets. -/
structure ToSet where
  mode : Bool
  uid : Bool
  gid : Bool
  size : Bool
  atime : Bool
  mtime : Bool
  atimeNow : Bool
  mtimeNow : Bool
  deriving DecidableEq, Repr

/-- `count_bits(to_set & ~nonatomic)`. -/
def ToSet.atomicCount (t : ToSet) : Nat := t.mode.toNat + t.uid.toNat + t.gid.toNat + t.size.toNat

/-- `to_set == (FUSE_SET_ATTR_UID | FUSE_SET_ATTR_GID)`. -/
def ToSet.uidGidOnly (t : ToSet) : Prop := t = ⟨false, true, true, false, false, false, false, false⟩

instance (t : ToSet) : Decidable t.uidGidOnly := by unfold ToSet.uidGidOnly; infer_instance

/-- The fields of `struct stat` that `setattr` reads. -/
structure Attr where
  mode : Nat
  uid : Nat
  gid : Nat
  size : Nat
  atime : Nat
  mtime : Nat
  deriving DecidableEq, Repr

/-- The part of `callback_setattr` that changes the file's size. -/
def setattrSize (root : Root) (newSize blockno : Nat) : M Unit := do
  let s ← get
  let nbytes := rootNbytes s.bpram root
  if newSize < nbytes then
    if nblocksForNbytes newSize < nblocksForNbytes nbytes then
      truncateBlockFree root newSize
      setNbytes root newSize
      let newBlockno2 ← treeChangeHeight root (treeHeight (nblocksForNbytes newSize)) .atomic blockno
      check .callbackSetattr (blockno = newBlockno2)
  else
    let newBlockno2 ← truncateBlockZero root nbytes bpfsEof bpfsEof blockno
    check .callbackSetattr (blockno = newBlockno2)
    setNbytes root newSize

/-- The part of `callback_setattr` that sets the mode and the owner. -/
def setattrOwner (attr : Attr) (toSet : ToSet) (no off : Nat) : M Unit := do
  if toSet.mode then
    let mode ← f2bMode attr.mode
    storeHalf no (off + 16) mode
  if toSet.uid ∧ toSet.gid then storeWord no (off + 8) (attr.uid % 2 ^ 32 + 2 ^ 32 * attr.gid)
  else if toSet.uid then storeHalf no (off + 8) attr.uid
  else if toSet.gid then storeHalf no (off + 12) attr.gid

/-- The part of `callback_setattr` that sets the time stamps. -/
def setattrTimes (attr : Attr) (toSet : ToSet) (no off timeNow : Nat) : M Unit := do
  if toSet.atime then storeHalf no (off + 48) attr.atime
  if toSet.mtime then storeHalf no (off + 56) attr.mtime
  storeHalf no (off + 52) timeNow
  if toSet.size then storeHalf no (off + 56) timeNow

/-- `callback_setattr`. -/
def callbackSetattr (attr : Attr) (toSet : ToSet) (timeNow : Nat) : CrawlCallbackInode :=
  fun block off commit blockno => do
    check .callbackSetattr (commit ≠ .none)
    let (block, newBlockno) ←
      if commit = .free ∨ (commit = .atomic ∧ (toSet.atomicCount ≤ 1 ∨ toSet.uidGidOnly)) then
        pure (block, blockno)
      else do
        let newBlockno ← cowBlockEntire blockno
        let block ← getBlock newBlockno
        pure (BlockPtr.bpram block, newBlockno)
    let no ← writable block
    let root := rootOfInode block off
    setattrOwner attr toSet no off
    let s ← get
    if toSet.size ∧ attr.size ≠ rootNbytes s.bpram root then setattrSize root attr.size newBlockno
    setattrTimes attr toSet no off timeNow
    pure (0, newBlockno)

/-- `fuse_setattr`: the attributes of the reply, or the error reply. -/
def fuseSetattr (ino : Nat) (attr : Attr) (toSet : ToSet) (timeNow : Nat) : M (Option Stat) := do
  let (block, off) ← getInode ino
  let s ← get
  check .fuseSetattr (ptrHalf s.bpram block (off + 20) ≠ 0)
  match ← orEnospc (crawlInode ino .atomic (callbackSetattr attr toSet timeNow)) with
  | none =>
      bpfsAbort
      pure none
  | some _ =>
      let st ← bpfsStat ino
      bpfsCommit
      pure (some st)

/-! ### Rename -/

/-- `callback_set_dirent_ino`. -/
def callbackSetDirentIno (ino : Nat) : CrawlCallback := fun _ block off _ _ _ commit blockno => do
  check .callbackSetDirentIno (commit ≠ .none)
  check .callbackSetDirentIno (off % direntAlign = 0)
  let (block, newBlockno) ←
    if commit = .copy then do
      let newBlockno ← cowBlockEntire blockno
      let block ← getBlock newBlockno
      pure (BlockPtr.bpram block, newBlockno)
    else pure (block, blockno)
  let no ← writable block
  storeWord no off ino
  pure (0, newBlockno)

/-- The call with which `fuse_rename` switches the two directory entries. -/
def renameDirents (dstParent dstOff ino srcParent srcOff : Nat) : M Nat :=
  crawlData2 dstParent dstOff 1 (callbackSetDirentIno ino) srcParent srcOff 1 (callbackSetDirentIno 0) .atomic

end Bpfs
