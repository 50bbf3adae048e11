import Bpfs.Crawler

/-! Crawls that start from the superblock: over the inode tree, over one inode,
over the data of one inode, and over two separate pieces of data that change
together (`crawl_data_2`). -/

namespace Bpfs
open Lib

def inodeSize : Nat := 128

/-- Offset of `root` in `struct bpfs_inode`. -/
def inodeRootOff : Nat := 32

/-- `crawl_callback_inode`: block and offset of the inode, commit mode, block number. -/
abbrev CrawlCallbackInode := BlockPtr → Nat → Commit → Nat → M (Nat × Nat)

/-- `get_inode_root`. -/
def getInodeRoot : M Root := do
  let s ← get
  let blk ← getBlock (superInodeRootAddr s.bpram)
  pure ⟨.bpram blk, 0⟩

/-- `&inode->root`. -/
def rootOfInode (block : BlockPtr) (off : Nat) : Root := ⟨block, off + inodeRootOff⟩

/-- `crawl_inodes`. -/
def crawlInodes (off size : Nat) (commit : Commit) (callback : CrawlCallback) : M Nat := do
  let root ← getInodeRoot
  let s ← get
  let (r, childBlockno) ← crawlTree root off size commit callback (superInodeRootAddr s.bpram)
  let s ← get
  if childBlockno ≠ superInodeRootAddr s.bpram then
    check .crawlInodes (commit = .copy ∨ commit = .atomic)
    storeWord blocknoSuper 32 childBlockno
  pure r

/-- `get_inode_offset`, whose callers all insist that it succeeds. -/
def getInodeOffset (ino : Nat) : M Nat := do
  check .getInodeOffset (ino ≠ 0)
  let s ← get
  check .getInodeOffset (ino - 1 < s.inodeAlloc.ntotal)
  let root ← getInodeRoot
  let s ← get
  check .getInodeOffset ((ino - 1) * inodeSize + inodeSize ≤ rootNbytes s.bpram root)
  pure ((ino - 1) * inodeSize)

/-- `callback_crawl_inode`. -/
def callbackCrawlInode (callback : CrawlCallbackInode) : CrawlCallback :=
  fun _ block off size _ _ commit blockno => do
    check .callbackCrawlInode (size = inodeSize)
    callback block off commit blockno

/-- `crawl_inode`. -/
def crawlInode (ino : Nat) (commit : Commit) (callback : CrawlCallbackInode) : M Nat := do
  let inoOff ← getInodeOffset ino
  crawlInodes inoOff inodeSize commit (callbackCrawlInode callback)

/-- `callback_crawl_data`. -/
def callbackCrawlData (dataOff size : Nat) (callback : CrawlCallback) : CrawlCallbackInode :=
  fun block off commit blockno => crawlTree (rootOfInode block off) dataOff size commit callback blockno

/-- `crawl_data`. -/
def crawlData (ino off size : Nat) (commit : Commit) (callback : CrawlCallback) : M Nat :=
  crawlInode ino commit (callbackCrawlData off size callback)

/-! ### Two writes at once -/

/-- `struct ccd2dd`: one of the two pieces. -/
structure Ccd2dd where
  ino : Nat
  inoOff : Nat
  off : Nat
  size : Nat
  callback : CrawlCallback

/-- `ccd2dd_fill`. -/
def ccd2ddFill (ino off size : Nat) (callback : CrawlCallback) : M Ccd2dd := do
  let inoOff ← getInodeOffset ino
  pure ⟨ino, inoOff, off, size, callback⟩

/-- `assert(r >= 0)` on the result of `x`. -/
def insist {α : Type} (site : Site) (x : M α) : M α := fun s =>
  match x s with
  | .error .enospc t => .error (.assertion site) t
  | result => result

/-- One round of the loop of `callback_crawl_data_2_tree`. -/
def callbackCrawlData2Piece (d : Ccd2dd) (blockoff valid crawlStart prevBlockno blockno : Nat) : M Nat := do
  let c := if blockno ≠ prevBlockno then Commit.free else .copy
  let block ← getBlock blockno
  let (_, blockno) ← d.callback blockoff (.bpram block) (d.off % blockSize) d.size valid crawlStart c blockno
  pure blockno

/-- `callback_crawl_data_2_tree`. -/
def callbackCrawlData2Tree (d0 d1 : Ccd2dd) : CrawlCallback :=
  fun blockoff _ off size valid crawlStart _ prevBlockno => do
    let firstOffset := blockoff * blockSize + off
    let lastOffset := firstOffset + size
    let blockno ←
      if firstOffset = d0.off then
        callbackCrawlData2Piece d0 blockoff valid crawlStart prevBlockno prevBlockno
      else pure prevBlockno
    let blockno ←
      if lastOffset = d1.off + d1.size then
        insist .callbackCrawlData2Tree
          (callbackCrawlData2Piece d1 blockoff valid crawlStart prevBlockno blockno)
      else pure blockno
    pure (0, blockno)

/-- The case of `callback_crawl_data_2` in which both inodes are in this block and differ. -/
def crawlTwoRoots (d0 d1 : Ccd2dd) (block : BlockPtr) (off size prevBlockno : Nat) : M (Nat × Nat) := do
  let (_, blockno) ← crawlTree (rootOfInode block off) d0.off d0.size .copy d0.callback prevBlockno
  let block ← getBlock blockno
  check .callbackCrawlData2 (prevBlockno ≠ blockno)
  insist .callbackCrawlData2
    (crawlTreeRef (rootOfInode (.bpram block) (off + size - inodeSize)) d1.off d1.size .copy d1.callback
      blockno false)

/-- `callback_crawl_data_2`. -/
def callbackCrawlData2 (d0 d1 : Ccd2dd) : CrawlCallback :=
  fun blockoff block off size _ _ commit blockno => do
    let firstOffset := blockoff * blockSize + off
    let lastOffset := firstOffset + size - inodeSize
    if firstOffset = d0.inoOff ∧ lastOffset = d1.inoOff then
      if d0.ino = d1.ino then
        check .callbackCrawlData2 (d0.off < d1.off)
        crawlTree (rootOfInode block off) d0.off (d1.off - d0.off + d1.size) commit
          (callbackCrawlData2Tree d0 d1) blockno
      else crawlTwoRoots d0 d1 block off size blockno
    else if firstOffset = d0.inoOff then
      check .callbackCrawlData2 (commit = .copy)
      crawlTree (rootOfInode block off) d0.off d0.size commit d0.callback blockno
    else if lastOffset = d1.inoOff then
      check .callbackCrawlData2 (commit = .copy)
      crawlTree (rootOfInode block (off + size - inodeSize)) d1.off d1.size commit d1.callback blockno
    else pure (0, blockno)

/-- `region_in_one_block`. -/
def regionInOneBlock (off size : Nat) : Prop := off % blockSize + size ≤ blockSize

instance (off size : Nat) : Decidable (regionInOneBlock off size) := by
  unfold regionInOneBlock; infer_instance

/-- `crawl_data_2`. -/
def crawlData2 (ino0 off0 size0 : Nat) (callback0 : CrawlCallback) (ino1 off1 size1 : Nat)
    (callback1 : CrawlCallback) (commit : Commit) : M Nat := do
  check .crawlData2 (¬(ino0 = ino1 ∧
    ((off0 ≤ off1 ∧ off1 < off0 + size0) ∨ (off1 ≤ off0 ∧ off0 < off1 + size1))))
  check .crawlData2 (regionInOneBlock off0 size0)
  check .crawlData2 (regionInOneBlock off1 size1)
  let a ← ccd2ddFill ino0 off0 size0 callback0
  let b ← ccd2ddFill ino1 off1 size1 callback1
  let (d0, d1) := if ino0 < ino1 ∨ (ino0 = ino1 ∧ off0 ≤ off1) then (a, b) else (b, a)
  crawlInodes d0.inoOff (d1.inoOff + inodeSize - d0.inoOff) commit (callbackCrawlData2 d0 d1)

end Bpfs
