import Bpfs.State

/-! Tree roots, tree heights, and the functions that change a tree's height or
zero its tail (`tree_change_height` and `truncate_block_zero`). -/

namespace Bpfs
open Lib

/-- A `struct bpfs_tree_root *`: the block that holds the root and its offset there. -/
structure Root where
  blk : BlockPtr
  off : Nat
  deriving DecidableEq, Repr

def BlockPtr.contents (m : Mem) : BlockPtr → Nat → UInt8
  | .zeroBlock => fun _ => 0
  | .bpram no => m no

def ptrWord (m : Mem) (p : BlockPtr) (off : Nat) : Nat := leValue (fun i => p.contents m (off + i)) 8

/-- `root->ha.height`, the low three bits of the packed word. -/
def haHeight (m : Mem) (root : Root) : Nat := ptrWord m root.blk root.off % 8

/-- `root->ha.addr`, the high 61 bits of the packed word. -/
def haAddr (m : Mem) (root : Root) : Nat := ptrWord m root.blk root.off / 8

def rootNbytes (m : Mem) (root : Root) : Nat := ptrWord m root.blk (root.off + 8)

/-- `tree_root_height`: an empty file has no valid height. -/
def treeRootHeight (m : Mem) (root : Root) : Nat :=
  if rootNbytes m root = 0 then 0 else haHeight m root

/-- `tree_root_addr`. -/
def treeRootAddr (m : Mem) (root : Root) : Nat :=
  if rootNbytes m root = 0 then blocknoInvalid else haAddr m root

/-- A store through a root pointer; the block of zeros is write-protected. -/
def storeRoot (root : Root) (off value : Nat) : M Unit :=
  match root.blk with
  | .zeroBlock => throw .sigsegv
  | .bpram no => storeWord no (root.off + off) value

def treeMaxHeight : Nat := 2 ^ 3 - 1
def treeRootMaxAddr : Nat := 2 ^ 61 - 1

/-- `ha_set`. -/
def haSet (root : Root) (height addr : Nat) : M Unit := do
  check .haSet (height ≤ treeMaxHeight)
  check .haSet (addr ≤ treeRootMaxAddr)
  storeRoot root 0 (8 * addr + height)

/-- `ha_set_addr`. -/
def haSetAddr (root : Root) (addr : Nat) : M Unit := do
  let s ← get
  check .haSet (addr ≤ treeRootMaxAddr)
  storeRoot root 0 (8 * addr + haHeight s.bpram root)

def setNbytes (root : Root) (nbytes : Nat) : M Unit := storeRoot root 8 nbytes

/-- `tree_max_nblocks`. -/
def treeMaxNblocks : Nat → Nat
  | 0 => 1
  | height + 1 => u64 (treeMaxNblocks height * blocknosPerIndir)

/-- The loop of `tree_height`, for at most `n` more levels. -/
def treeHeightLoop (nblocks : Nat) : Nat → Nat → Nat → Nat
  | 0, height, _ => height
  | n + 1, height, maxNblocks =>
      if maxNblocks < nblocks then
        treeHeightLoop nblocks n (height + 1) (u64 (maxNblocks * blocknosPerIndir))
      else height

/-- `tree_height`. Seven levels hold 2^63 blocks, more than any 64-bit byte count needs. -/
def treeHeight (nblocks : Nat) : Nat := treeHeightLoop nblocks 7 0 1

/-- `NBLOCKS_FOR_NBYTES`. -/
def nblocksForNbytes (nbytes : Nat) : Nat := u64 (nbytes + blockSize - 1) / blockSize

/-- `max_nblocks * BPFS_BLOCK_SIZE`, a 64-bit product. -/
def nbytesOfBlocks (nblocks : Nat) : Nat := u64 (nblocks * blockSize)

/-- The loop that marks the entries of a new indirect block between the old capacity
and the file's length as sparse. -/
def markSparse (blk childMaxNbytes nextValid : Nat) : Nat → Nat → Nat → M Unit
  | 0, _, _ => pure ()
  | n + 1, i, valid =>
      if valid < nextValid then do
        storeAddr blk i blocknoInvalid
        markSparse blk childMaxNbytes nextValid n (i + 1) (valid + childMaxNbytes)
      else pure ()

/-- The growing loop of `tree_change_height`: one new indirect block per level. -/
def growTree (root : Root) : Nat → Nat → Nat → M Nat
  | 0, _, newRootAddr => pure newRootAddr
  | n + 1, childMaxNbytes, newRootAddr => do
      let maxNbytes := u64 (blocknosPerIndir * childMaxNbytes)
      let newBlockno ← allocBlock
      if newBlockno = blocknoInvalid then throw .enospc
      let newIndir ← getBlock newBlockno
      storeAddr newIndir 0 newRootAddr
      let s ← get
      let nbytes := rootNbytes s.bpram root
      if childMaxNbytes < nbytes then
        markSparse newIndir childMaxNbytes (min nbytes maxNbytes) (blocknosPerIndir - 1) 1 childMaxNbytes
      growTree root n maxNbytes newBlockno

/-- The shrinking loop of `tree_change_height`: follow the first entry of each level. -/
def shrinkTree : Nat → Nat → M Nat
  | 0, addr => pure addr
  | n + 1, addr =>
      if addr = blocknoInvalid then pure addr
      else do
        let indir ← getBlock addr
        let next ← loadAddr indir 0
        shrinkTree n next

/-- `tree_change_height`. Returns the block that holds the root afterwards. -/
def treeChangeHeight (root : Root) (newHeight : Nat) (commit : Commit) (blockno : Nat) : M Nat := do
  let s ← get
  let height := treeRootHeight s.bpram root
  check .treeChangeHeight (commit ≠ .none)
  if height = newHeight then pure blockno
  else
    let newRootAddr ←
      if height < newHeight then
        if rootNbytes s.bpram root ≠ 0 ∧ treeRootAddr s.bpram root ≠ blocknoInvalid then
          growTree root (newHeight - height) (u64 (blockSize * treeMaxNblocks height))
            (treeRootAddr s.bpram root)
        else pure blocknoInvalid
      else shrinkTree (height - newHeight) (treeRootAddr s.bpram root)
    if commit = .copy then
      let newBlockno ← cowBlockEntire blockno
      haSet { root with blk := .bpram newBlockno } newHeight newRootAddr
      pure newBlockno
    else
      haSet root newHeight newRootAddr
      pure blockno

/-! ### Zeroing the tail -/

/-- `truncate_block_zero_leaf`: in the MODE_BPFS build the block is zeroed in place. -/
def truncateBlockZeroLeaf (prevBlockno start fin valid : Nat) : M Nat := do
  check .truncateBlockZeroLeaf (valid ≤ start)
  check .truncateBlockZeroLeaf (start < fin)
  check .truncateBlockZeroLeaf (fin ≤ blockSize)
  let block ← getBlock prevBlockno
  memset block start (fin - start)
  pure prevBlockno

/-- The loop of `truncate_block_zero_indir` over `n` entries from `no` on. -/
def clearAddrs (blk : Nat) : Nat → Nat → M Unit
  | 0, _ => pure ()
  | n + 1, no => do
      let addr ← loadAddr blk no
      if addr ≠ blocknoInvalid then storeAddr blk no blocknoInvalid
      clearAddrs blk n (no + 1)

/-- Everything in `truncate_block_zero_indir` except the choice of what zeroes the
child that `start` falls in. -/
def truncateBlockZeroNode (child : Nat → Nat → Nat → Nat → Nat → M Nat)
    (prevBlockno start fin valid maxNblocks : Nat) : M Nat := do
  let indir ← getBlock prevBlockno
  let childMaxNblocks := maxNblocks / blocknosPerIndir
  let childMaxNbytes := u64 (blockSize * childMaxNblocks)
  if childMaxNbytes = 0 then throw .sigfpe
  let validno := (valid + childMaxNbytes - 1) / childMaxNbytes
  let beginno := start / childMaxNbytes
  let endno := (fin + childMaxNbytes - 1) / childMaxNbytes
  check .truncateBlockZeroIndir (valid ≤ start)
  check .truncateBlockZeroIndir (start < fin)
  check .truncateBlockZeroIndir (fin ≤ nbytesOfBlocks maxNblocks)
  clearAddrs indir (endno - (beginno + 1)) (beginno + 1)
  if start % childMaxNbytes = 0 then storeAddr indir beginno blocknoInvalid
  else
    let childBlockno ← loadAddr indir beginno
    if childBlockno ≠ blocknoInvalid then
      let childBegin := start - beginno * childMaxNbytes
      let childEnd := min (fin - beginno * childMaxNbytes) childMaxNbytes
      let childValid ←
        if beginno + 1 = validno then pure (min (valid - beginno * childMaxNbytes) childMaxNbytes)
        else do
          check .truncateBlockZeroIndir (validno < beginno + 1)
          pure 0
      let newChild ← child childBlockno childBegin childEnd childValid childMaxNblocks
      let addr ← loadAddr indir beginno
      if addr ≠ newChild then storeAddr indir beginno newChild
  pure prevBlockno

/-- `truncate_block_zero_indir` at the given height. -/
def truncateBlockZeroIndir : Nat → Nat → Nat → Nat → Nat → Nat → M Nat
  | 0, _, _, _, _, _ => throw .stackOverflow
  | height + 1, prevBlockno, start, fin, valid, maxNblocks =>
      truncateBlockZeroNode
        (if height = 0 then fun blockno b e v _ => truncateBlockZeroLeaf blockno b e v
          else truncateBlockZeroIndir height)
        prevBlockno start fin valid maxNblocks

/-- `truncate_block_zero`. -/
def truncateBlockZero (root : Root) (start fin valid blockno : Nat) : M Nat := do
  let s ← get
  let height := treeRootHeight s.bpram root
  let nbytes := rootNbytes s.bpram root
  let maxNblocks := treeMaxNblocks height
  let maxNbytes := nbytesOfBlocks maxNblocks
  if maxNbytes ≤ nbytes then pure blockno
  else
    let fin := if fin = bpfsEof then maxNbytes else fin
    let valid := if valid = bpfsEof then min nbytes maxNbytes else valid
    check .truncateBlockZero (valid ≤ start)
    check .truncateBlockZero (start < fin)
    let fin := min fin maxNbytes
    if fin < start then pure blockno
    else
      let addr := treeRootAddr s.bpram root
      if addr = blocknoInvalid then pure blockno
      else
        let childBlockno ←
          if start = 0 then pure blocknoInvalid
          else if height = 0 then truncateBlockZeroLeaf addr start fin valid
          else truncateBlockZeroIndir height addr start fin valid maxNblocks
        let s ← get
        if treeRootAddr s.bpram root ≠ childBlockno then haSetAddr root childBlockno
        pure blockno

end Bpfs
