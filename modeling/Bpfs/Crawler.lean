import Bpfs.Tree

/-! The crawler: it walks the blocks of a tree that a byte range touches, calls
back on each leaf, and links what the callback copied back into the tree in the way
the commit mode asks for. A callback answers with 0 (go on) or 1 (stop the crawl)
and the number of the block it leaves in the tree. -/

namespace Bpfs
open Lib

/-- `crawl_callback`: block index, block, offset and size in the block, valid bytes
in the block, start of the crawl, commit mode and block number. -/
abbrev CrawlCallback := Nat → BlockPtr → Nat → Nat → Nat → Nat → Commit → Nat → M (Nat × Nat)

/-- `crawl_blockno_callback`: block number, and whether it is a leaf. -/
abbrev CrawlBlocknoCallback := Nat → Bool → M Unit

/-- Remember which indirect block a leaf was reached through. -/
def noteIndir (childBlockno indirBlockno : Nat) : M Unit := do
  let s ← get
  if childBlockno ≤ superNblocks s.bpram then
    modify fun s => { s with
      indirMapping := fun k => if k = childBlockno then indirBlockno else s.indirMapping k
      mappingAccesses := s.mappingAccesses ++ [childBlockno] }
  if childBlockno.testBit 63 then
    modify fun s => { s with currentIndirPointer := indirBlockno }

/-- `crawl_leaf`; the leaf of a tree without indirect blocks has no `indirBlockno`. -/
def crawlLeaf (callback : Option CrawlCallback) (bcallback : Option CrawlBlocknoCallback)
    (crawlStart : Nat) (indirBlockno : Option Nat) (prevBlockno blockoff off size valid : Nat)
    (commit : Commit) : M (Nat × Nat) := do
  check .crawlLeaf (crawlStart / blockSize ≤ blockoff)
  check .crawlLeaf (off < blockSize)
  check .crawlLeaf (off + size ≤ blockSize)
  check .crawlLeaf (valid ≤ blockSize)
  let blockno ←
    if commit ≠ .none ∧ prevBlockno = blocknoInvalid then cowBlockHole off size valid
    else pure prevBlockno
  match indirBlockno with
  | some indir => noteIndir blockno indir
  | none => pure ()
  let isHole := prevBlockno = blocknoInvalid ∧ commit = .none
  match callback with
  | some callback =>
      let childCommit := if blockno = prevBlockno then commit else .free
      let block ← if isHole then pure .zeroBlock else BlockPtr.bpram <$> getBlock blockno
      callback blockoff block off size valid crawlStart childCommit blockno
  | none =>
      if isHole then pure (0, prevBlockno)
      else
        check .crawlLeaf (blockno = prevBlockno)
        match bcallback with
        | some bcallback => bcallback blockno true
        | none => throw (.assertion .crawlLeaf)
        pure (0, prevBlockno)

/-- The loop of `crawl_hole`, for at most `n` blocks. -/
def crawlHoleLoop (callback : CrawlCallback) (crawlStart fin valid : Nat) :
    Nat → Nat → Nat → Nat → M Nat
  | 0, _, _, _ => pure 0
  | n + 1, blockoff, offBlock, off =>
      if off < fin then do
        let childOff := off % blockSize
        let childSize := min (fin - off) blockSize
        let childValid := min (usub valid offBlock) blockSize
        let (r, childBlockno) ← callback blockoff .zeroBlock childOff childSize childValid crawlStart
          .none blocknoInvalid
        check .crawlHole (childBlockno = blocknoInvalid)
        let next := offBlock + blockSize
        if r ≠ 0 then pure r else crawlHoleLoop callback crawlStart fin valid n (blockoff + 1) next next
      else pure 0

/-- `crawl_hole`. -/
def crawlHole (callback : CrawlCallback) (crawlStart blockoff off size valid : Nat) : M Nat := do
  check .crawlHole (crawlStart / blockSize ≤ blockoff)
  check .crawlHole (off + size ≤ valid)
  crawlHoleLoop callback crawlStart (off + size) valid (size / blockSize + 2) blockoff
    (off - off % blockSize) off

/-- What `crawl_indir` and `crawl_leaf` have in common for their caller: parent block,
block number, block index, offset, size, valid bytes and commit mode. -/
abbrev ChildCrawl := Nat → Nat → Nat → Nat → Nat → Nat → Commit → M (Nat × Nat)

/-- The values `crawl_indir` computes once, before its loop. -/
structure IndirCrawl where
  prevBlockno : Nat
  blockoff : Nat
  off : Nat
  size : Nat
  valid : Nat
  commit : Commit
  childMaxNblocks : Nat
  childMaxNbytes : Nat
  inHole : Bool
  deriving DecidableEq, Repr

namespace IndirCrawl

def firstno (c : IndirCrawl) : Nat := c.off / c.childMaxNbytes
def lastno (c : IndirCrawl) : Nat := usub (c.off + c.size) 1 / c.childMaxNbytes
def validno (c : IndirCrawl) : Nat := (c.valid + c.childMaxNbytes - 1) / c.childMaxNbytes
def onlyInvalid (c : IndirCrawl) : Prop := c.valid ≤ c.off

instance (c : IndirCrawl) : Decidable c.onlyInvalid := by unfold onlyInvalid; infer_instance

/-- A write that stays under one child, or beyond the valid bytes, is as atomic below as here. -/
def childCommit (c : IndirCrawl) : Commit :=
  match c.commit with
  | .atomic => if c.firstno = c.lastno ∨ c.onlyInvalid then .atomic else .copy
  | other => other

def childOff (c : IndirCrawl) (no : Nat) : Nat :=
  if no = c.firstno then c.off % c.childMaxNbytes else 0

def childBlockoff (c : IndirCrawl) (no : Nat) : Nat :=
  if no = c.firstno then c.blockoff
  else c.blockoff + (no - c.firstno) * c.childMaxNblocks - c.off % c.childMaxNbytes / blockSize

def childSize (c : IndirCrawl) (no : Nat) : Nat :=
  if no = c.lastno then c.off + c.size - (no * c.childMaxNbytes + c.childOff no)
  else c.childMaxNbytes - c.childOff no

def childValid (c : IndirCrawl) (no : Nat) : Nat :=
  if no < c.validno then
    if (no + 1) * c.childMaxNbytes ≤ c.valid then c.childMaxNbytes else c.valid % c.childMaxNbytes
  else 0

end IndirCrawl

/-- The number of the child as the loop of `crawl_indir` starts on it. Entries beyond the
valid bytes and those of a block made for a hole are not looked at; a leaf on disk is
fetched first. -/
def indirChild (c : IndirCrawl) (leaves : Bool) (blockno no : Nat) : M Nat := do
  let childBlockno ←
    if c.childValid no = 0 ∨ c.inHole then pure blocknoInvalid else loadAddr blockno no
  if leaves ∧ childBlockno.testBit 63 then getBlockFromDisk childBlockno blockno
  else pure childBlockno

/-- Put a child's new number in the indirect block, in place when the commit mode allows
it and in a copy otherwise. Returns the block that now holds the entry. -/
def indirLink (c : IndirCrawl) (blockno no r childNewBlockno : Nat) : M Nat := do
  let single := c.firstno = c.lastno ∨ r = 1
  check .crawlIndir (c.commit ≠ .none)
  let blockno ←
    if c.prevBlockno ≠ blockno ∨ (c.commit = .atomic ∧ single) ∨ c.childValid no = 0 then pure blockno
    else do
      check .crawlIndirCow (¬(c.commit = .atomic ∧ c.onlyInvalid))
      cowBlockEntire blockno
  storeAddr blockno no childNewBlockno
  pure blockno

/-- What the loop of `crawl_indir` does with the outcome of a child's crawl. -/
def indirSettle (c : IndirCrawl) (blockno no childBlockno r childNewBlockno : Nat) : M (Nat × Nat) := do
  let blockno ←
    if childBlockno ≠ childNewBlockno ∨ c.inHole then indirLink c blockno no r childNewBlockno
    else pure blockno
  if r = 1 then check .crawlIndir (¬c.inHole)
  pure (r, blockno)

/-- One round of the loop of `crawl_indir`: the callback's answer and the block that
holds the entries afterwards. -/
def indirStep (c : IndirCrawl) (leaves : Bool) (child : ChildCrawl) (blockno no : Nat) :
    M (Nat × Nat) := do
  check .crawlIndir (c.blockoff ≤ c.childBlockoff no)
  check .crawlIndir (c.childSize no ≤ c.size)
  check .crawlIndir (c.childSize no ≤ c.childMaxNbytes)
  let childBlockno ← indirChild c leaves blockno no
  let (r, childNewBlockno) ← child blockno childBlockno (c.childBlockoff no) (c.childOff no)
    (c.childSize no) (c.childValid no) c.childCommit
  indirSettle c blockno no childBlockno r childNewBlockno

/-- The loop of `crawl_indir`, for `n` more children from `no` on. -/
def indirLoop (c : IndirCrawl) (leaves : Bool) (child : ChildCrawl) : Nat → Nat → Nat → M (Nat × Nat)
  | 0, _, blockno => pure (0, blockno)
  | n + 1, no, blockno => do
      let (r, blockno) ← indirStep c leaves child blockno no
      if r = 1 then pure (1, blockno) else indirLoop c leaves child n (no + 1) blockno

/-- The body of `crawl_indir`, given what crawls a child and whether children are leaves. -/
def crawlIndirNode (callback : Option CrawlCallback) (bcallback : Option CrawlBlocknoCallback)
    (crawlStart : Nat) (leaves : Bool) (child : ChildCrawl) (maxNblocks : Nat)
    (prevBlockno blockoff off size valid : Nat) (commit : Commit) : M (Nat × Nat) := do
  let childMaxNblocks := maxNblocks / blocknosPerIndir
  let childMaxNbytes := nbytesOfBlocks childMaxNblocks
  if childMaxNbytes = 0 then throw .sigfpe
  let inHole := prevBlockno = blocknoInvalid
  let c : IndirCrawl := ⟨prevBlockno, blockoff, off, size, valid, commit, childMaxNblocks,
    childMaxNbytes, inHole⟩
  if inHole ∧ callback.isNone then pure (0, prevBlockno)
  else if inHole ∧ commit = .none then
    match callback with
    | none => pure (0, prevBlockno)
    | some callback => do
        let r ← crawlHole callback crawlStart blockoff off size valid
        pure (r, prevBlockno)
  else
    let blockno ←
      if inHole then
        cowBlockHole (c.firstno * 8) ((c.lastno + 1 - c.firstno) * 8) (c.validno * 8)
      else pure prevBlockno
    -- indirect blocks are never on disk: `indir` points at block `blockno` itself
    let blockno ← getBlock blockno
    let loop := indirLoop c leaves child (c.lastno + 1 - c.firstno) c.firstno blockno
    match bcallback with
    | none => loop
    | some bcallback =>
        let (ret, blockno) ← loop
        if off = 0 then
          check .crawlIndir (commit = .none)
          check .crawlIndir (prevBlockno = blockno)
          bcallback blockno false
        pure (ret, blockno)

/-- `crawl_indir` at the given height; `max_nblocks` is the capacity in leaves. -/
def crawlIndir (callback : Option CrawlCallback) (bcallback : Option CrawlBlocknoCallback)
    (crawlStart : Nat) : Nat → Nat → Nat → Nat → Nat → Nat → Nat → Commit → M (Nat × Nat)
  | 0, _, _, _, _, _, _, _ => throw .stackOverflow
  | height + 1, maxNblocks, prevBlockno, blockoff, off, size, valid, commit =>
      crawlIndirNode callback bcallback crawlStart (height = 0)
        (if height = 0 then fun parent => crawlLeaf callback bcallback crawlStart (some parent)
          else fun _ => crawlIndir callback bcallback crawlStart height (maxNblocks / blocknosPerIndir))
        maxNblocks prevBlockno blockoff off size valid commit

/-- `crawl_blocknos`: a read-only crawl over the indirect and data blocks of a tree. -/
def crawlBlocknos (root : Root) (off size : Nat) (callback : CrawlBlocknoCallback) : M Unit := do
  let s ← get
  let height := treeRootHeight s.bpram root
  let nbytes := rootNbytes s.bpram root
  let maxNblocks := treeMaxNblocks height
  let maxNbytes := nbytesOfBlocks maxNblocks
  let off := if off = bpfsEof then nbytes else off
  check .crawlBlocknos (off = 0 ∨ off < nbytes)
  let size := if size = bpfsEof then nbytes - off else size
  check .crawlBlocknos (off + size ≤ nbytes)
  if off + size = 0 then pure ()
  else
    let size := min size (usub maxNbytes off)
    let valid := min nbytes maxNbytes
    if height = 0 then
      if off = 0 then
        let _ ← crawlLeaf none (some callback) off none (treeRootAddr s.bpram root) 0 off size valid .none
        pure ()
    else
      let _ ← crawlIndir none (some callback) off height maxNblocks (treeRootAddr s.bpram root)
        (off / blockSize) off size valid .none
      pure ()

/-- The part of `crawl_tree_ref` before the crawl of a write: grow the tree to the height
the range needs and zero the gap between the file's end and the range. -/
def crawlTreePrepare (root : Root) (off fin prevBlockno : Nat) : M (Root × Nat) := do
  let s ← get
  let nbytes := rootNbytes s.bpram root
  let prevHeight := treeRootHeight s.bpram root
  let newHeight := max prevHeight (treeHeight (nblocksForNbytes fin))
  let newMaxNbytes := u64 (blockSize * treeMaxNblocks newHeight)
  let intValid := min nbytes newMaxNbytes
  let newValid := min (max nbytes fin) newMaxNbytes
  check .crawlTreeRef (fin ≤ newValid)
  check .crawlTreeRef (newValid ≤ nbytes ∨ (nbytes < fin ∧ fin = newValid))
  check .crawlTreeRef (nbytes ≤ newValid ∨ fin < nbytes)
  check .crawlTreeRef (nbytes ≠ newValid ∨ fin ≤ nbytes)
  let blockno ←
    if prevHeight < newHeight then treeChangeHeight root newHeight .atomic prevBlockno else pure prevBlockno
  let root := if prevBlockno ≠ blockno then { root with blk := .bpram blockno } else root
  let blockno ←
    if intValid < off then truncateBlockZero root intValid off intValid blockno else pure blockno
  let root := if prevBlockno ≠ blockno then { root with blk := .bpram blockno } else root
  pure (root, blockno)

/-- The part of `crawl_tree_ref` after the crawl of a write: put the new address and the
new length in the root, in place or in a copy of the block that holds it. -/
def crawlTreeFinish (root : Root) (off fin : Nat) (commit : Commit)
    (prevBlockno newBlockno childNewBlockno : Nat) (blocknoRefed : Bool) : M Nat := do
  let s ← get
  let nbytes := rootNbytes s.bpram root
  let changeAddr := treeRootAddr s.bpram root ≠ childNewBlockno
  let changeSize := nbytes < fin
  if changeAddr ∨ changeSize ∨ prevBlockno ≠ newBlockno then
    let overwrite := off < nbytes
    check .crawlTreeRef (¬(¬changeAddr ∧ overwrite ∧ changeSize))
    let inplace :=
      if prevBlockno ≠ newBlockno ∨ ¬blocknoRefed then True
      else if changeAddr ∧ overwrite ∧ changeSize then commit = .free
      else commit = .free ∨ commit = .atomic
    if inplace then
      if changeAddr then haSetAddr root childNewBlockno
      if changeSize then setNbytes root fin
      pure newBlockno
    else
      let newBlockno ← cowBlockEntire newBlockno
      let root := { root with blk := .bpram newBlockno }
      if changeAddr then haSetAddr root childNewBlockno
      if changeSize then setNbytes root fin
      pure newBlockno
  else pure prevBlockno

/-- `crawl_tree_ref`. -/
def crawlTreeRef (root : Root) (off size : Nat) (commit : Commit) (callback : CrawlCallback)
    (prevBlockno : Nat) (blocknoRefed : Bool) : M (Nat × Nat) := do
  let s ← get
  let off := if off = bpfsEof then rootNbytes s.bpram root else off
  check .crawlTreeRef (size ≠ bpfsEof ∨ off ≤ rootNbytes s.bpram root)
  let size := if size = bpfsEof then rootNbytes s.bpram root - off else size
  let fin := off + size
  check .crawlTreeRef (commit ≠ .none ∨ fin ≤ rootNbytes s.bpram root)
  let (root, newBlockno) ←
    if commit ≠ .none then crawlTreePrepare root off fin prevBlockno else pure (root, prevBlockno)
  let s ← get
  let nbytes := rootNbytes s.bpram root
  let height := haHeight s.bpram root
  let addr := treeRootAddr s.bpram root
  let maxNblocks := treeMaxNblocks height
  let maxNbytes := nbytesOfBlocks maxNblocks
  let childSize := if commit ≠ .none then size else min size (usub maxNbytes off)
  let childValid := min nbytes maxNbytes
  let childCommit := if commit = .atomic ∧ off < nbytes ∧ nbytes < fin then .copy else commit
  let (r, childNewBlockno) ←
    if height = 0 then
      if childSize ≠ 0 then
        crawlLeaf (some callback) none off none addr 0 off childSize childValid childCommit
      else pure (0, addr)
    else
      crawlIndir (some callback) none off height maxNblocks addr (off / blockSize) off childSize
        childValid childCommit
  if commit = .none then
    let s ← get
    check .crawlTreeRef (treeRootAddr s.bpram root = childNewBlockno ∧ fin ≤ rootNbytes s.bpram root)
    check .crawlTreeRef (prevBlockno = newBlockno)
    if r = 0 then
      let r ← crawlHole callback off ((off + childSize) / blockSize) childSize (size - childSize) nbytes
      pure (r, prevBlockno)
    else pure (r, prevBlockno)
  else
    let blockno ← crawlTreeFinish root off fin commit prevBlockno newBlockno childNewBlockno blocknoRefed
    pure (r, blockno)

/-- `crawl_tree`. -/
def crawlTree (root : Root) (off size : Nat) (commit : Commit) (callback : CrawlCallback)
    (prevBlockno : Nat) : M (Nat × Nat) :=
  crawlTreeRef root off size commit callback prevBlockno true

end Bpfs
