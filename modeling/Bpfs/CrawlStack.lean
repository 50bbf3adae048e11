import Bpfs.Crawler

/-! The stack of parent blocks in the builds with INDIRECT_COW: every writing crawl pushes a
block before it follows a pointer in it and pops it on the return. The blocks themselves are left
open: what the crawl reads and allocates comes from a memory that may answer in any way and may
see the stack, but not change it. Assertions other than those of the stack are left out, since one
that fails ends the run. COMMIT_ATOMIC is COMMIT_COPY in these builds. -/

namespace Bpfs.CrawlStack
open Lib

def treeMaxHeight : Nat := 7

/-- `PARENT_STACK_SIZE`. -/
def parentStackSize : Nat := 2 * treeMaxHeight + 2

inductive Stop where
  /-- the assertion of `indirect_cow_parent_push` -/
  | overflow
  /-- the assertions of `indirect_cow_parent_pop` -/
  | mismatch
  | sigfpe
  /-- the memory ends the run -/
  | exit
  deriving DecidableEq, Repr

/-- The commit modes of a write. -/
inductive Write where
  | copy
  | free
  deriving DecidableEq, Repr

structure CrawlState (W : Type) where
  world : W
  /-- the numbers of the pushed blocks, the top first -/
  stack : List Nat

abbrev CrawlM (W : Type) := EStateM Stop (CrawlState W)

/-- A step of the memory, which may end the run. -/
abbrev Act (W α : Type) := List Nat → W → Option (α × W)

/-- A `struct bpfs_tree_root`: its block and its place in it. -/
structure RootPtr where
  block : Nat
  off : Nat
  deriving DecidableEq, Repr

/-- The operations on blocks that the crawler uses. An allocation that fails returns `BPFS_BLOCKNO_INVALID`. -/
structure Memory (W : Type) where
  cowBlockHole : (off size valid : Nat) → Act W Nat
  cowBlock : (blockno off size valid : Nat) → Act W Nat
  cowBlockEntire : (blockno : Nat) → Act W Nat
  getBlockFromDisk : (blockno indir : Nat) → Act W Nat
  /-- `indir->addr[no]` -/
  addr : (blockno no : Nat) → Act W Nat
  setAddr : (blockno no value : Nat) → Act W Unit
  nbytes : RootPtr → Act W Nat
  /-- `ha.height`, a field of three bits -/
  height : RootPtr → Act W (Fin 8)
  rootAddr : RootPtr → Act W Nat
  setRoot : RootPtr → (addr nbytes : Nat) → Act W Unit
  treeChangeHeight : RootPtr → (newHeight blockno : Nat) → Act W (Int × Nat)
  superBlockno : Act W Nat
  inodeRootAddr : Act W Nat
  setInodeRootAddr : (addr : Nat) → Act W Unit
  /-- the record of a pushed block is looked up or made -/
  record : (blockno : Nat) → Act W Unit

variable {W α : Type}

def enospc : Int := 28

def lift (act : Act W α) : CrawlM W α := fun s =>
  match act s.stack s.world with
  | some (a, w) => .ok a { s with world := w }
  | none => .error .exit s

variable (m : Memory W)

/-- `indirect_cow_parent_push`. -/
def push (blockno : Nat) : CrawlM W Unit := do
  lift (m.record blockno)
  modify fun s => { s with stack := blockno :: s.stack }
  let s ← get
  if parentStackSize < s.stack.length then throw .overflow else pure ()

/-- `indirect_cow_parent_pop`. -/
def pop (blockno : Nat) : CrawlM W Unit := do
  let s ← get
  match s.stack with
  | [] => throw .mismatch
  | top :: rest => if top = blockno then modify fun s => { s with stack := rest } else throw .mismatch

/-- A crawl below a block: the block is pushed, and popped on every return. -/
def below (blockno : Nat) (x : CrawlM W α) : CrawlM W α := do
  push m blockno
  let a ← x
  pop blockno
  pure a

/-- `crawl_callback`: block index, offset and size in the block, valid bytes, start of the crawl, commit mode and block
number; answers with a code and the block number it leaves. -/
abbrev Callback (W : Type) := Nat → Nat → Nat → Nat → Nat → Write → Nat → CrawlM W (Int × Nat)

/-- `crawl_leaf`. -/
def crawlLeaf (callback : Callback W) (crawlStart prevBlockno blockoff off size valid : Nat) (commit : Write) :
    CrawlM W (Int × Nat) := do
  let blockno ← (if prevBlockno = blocknoInvalid then lift (m.cowBlockHole off size valid) else pure prevBlockno)
  if blockno = blocknoInvalid then pure (-enospc, prevBlockno)
  else do
    let (r, childBlockno) ← callback blockoff off size valid crawlStart
      (if blockno = prevBlockno then commit else .free) blockno
    pure (r, if 0 ≤ r then childBlockno else prevBlockno)

/-- What `crawl_indir` and `crawl_leaf` have in common for their caller: capacity in blocks, block number, block index, offset,
size, valid bytes and commit mode. -/
abbrev ChildCrawl (W : Type) := Nat → Nat → Nat → Nat → Nat → Nat → Write → CrawlM W (Int × Nat)

/-- The child as the loop of `crawl_indir` starts on it. -/
def indirChild (c : IndirCrawl) (blockno no : Nat) : CrawlM W Nat :=
  if c.childValid no = 0 ∨ c.inHole then pure blocknoInvalid else lift (m.addr blockno no)

/-- What the loop of `crawl_indir` does with the outcome of a child's crawl: the code and the block that has the entries. -/
def indirSettle (c : IndirCrawl) (blockno no childBlockno : Nat) (r : Int) (childNewBlockno : Nat) :
    CrawlM W (Int × Nat) :=
  if r < 0 then pure (r, blockno)
  else if childBlockno ≠ childNewBlockno ∨ c.inHole then do
    let copy ← (if c.prevBlockno ≠ blockno ∨ c.onlyInvalid then pure blockno else lift (m.cowBlockEntire blockno))
    if copy = blocknoInvalid then pure (-enospc, blockno)
    else do
      lift (m.setAddr copy no childNewBlockno)
      pure (r, copy)
  else pure (r, blockno)

/-- One round of the loop of `crawl_indir`. A leaf on disk is fetched first. -/
def indirStep (c : IndirCrawl) (leaves : Bool) (child : ChildCrawl W) (commit : Write) (blockno no : Nat) :
    CrawlM W (Int × Nat) := do
  let listed ← indirChild m c blockno no
  let (childBlockno, r, childNewBlockno) ← below m blockno do
    let childBlockno ← (if leaves ∧ listed.testBit 63 then lift (m.getBlockFromDisk listed blockno) else pure listed)
    let (r, childNewBlockno) ← child c.childMaxNblocks childBlockno (c.childBlockoff no) (c.childOff no) (c.childSize no)
      (c.childValid no) commit
    pure (childBlockno, r, childNewBlockno)
  indirSettle m c blockno no childBlockno r childNewBlockno

/-- The loop of `crawl_indir`, for `n` more children from `no` on. -/
def indirLoop (c : IndirCrawl) (leaves : Bool) (child : ChildCrawl W) (commit : Write) :
    Nat → Nat → Nat → CrawlM W (Int × Nat)
  | 0, _, blockno => pure (0, blockno)
  | n + 1, no, blockno => do
      let (r, blockno) ← indirStep m c leaves child commit blockno no
      if r < 0 ∨ r = 1 then pure (r, blockno) else indirLoop c leaves child commit n (no + 1) blockno

/-- The body of `crawl_indir`, given what crawls a child and whether children are leaves. -/
def crawlIndirNode (leaves : Bool) (child : ChildCrawl W) : ChildCrawl W :=
  fun maxNblocks prevBlockno blockoff off size valid commit => do
    let childMaxNblocks := maxNblocks / blocknosPerIndir
    let childMaxNbytes := nbytesOfBlocks childMaxNblocks
    if childMaxNbytes = 0 then throw .sigfpe
    else do
      let c : IndirCrawl := ⟨prevBlockno, blockoff, off, size, valid, .copy, childMaxNblocks, childMaxNbytes,
        prevBlockno = blocknoInvalid⟩
      let blockno ← (if prevBlockno = blocknoInvalid then
          lift (m.cowBlockHole (c.firstno * 8) ((c.lastno + 1 - c.firstno) * 8) (c.validno * 8))
        else pure prevBlockno)
      if blockno = blocknoInvalid then pure (-enospc, prevBlockno)
      else do
        let (r, blockno) ← indirLoop m c leaves child commit (c.lastno + 1 - c.firstno) c.firstno blockno
        pure (r, if r < 0 then prevBlockno else blockno)

/-- `crawl_leaf` at height 0 and `crawl_indir` above. -/
def crawlHeight (callback : Callback W) (crawlStart : Nat) : Nat → ChildCrawl W
  | 0 => fun _ => crawlLeaf m callback crawlStart
  | height + 1 => crawlIndirNode m (height = 0) (crawlHeight callback crawlStart height)

/-! ### `truncate_block_zero` -/

def truncateBlockZeroLeaf (prevBlockno start fin : Nat) : CrawlM W (Int × Nat) := do
  let blockno ← lift (m.cowBlock prevBlockno start (fin - start) start)
  if blockno = blocknoInvalid then pure (-enospc, prevBlockno) else pure (0, blockno)

/-- The loop over the entries behind the boundary. -/
def clearEntries (blockno : Nat) : Nat → Nat → CrawlM W Unit
  | 0, _ => pure ()
  | n + 1, no => do
      let addr ← lift (m.addr blockno no)
      (if addr ≠ blocknoInvalid then lift (m.setAddr blockno no blocknoInvalid) else pure ())
      clearEntries blockno n (no + 1)

/-- The entry at the boundary. -/
def truncateBoundary (child : Nat → CrawlM W (Int × Nat)) (prevBlockno blockno beginno : Nat) : CrawlM W (Int × Nat) := do
  let addr ← lift (m.addr blockno beginno)
  if addr = blocknoInvalid then pure (0, blockno)
  else do
    let (r, childBlockno) ← below m blockno (child addr)
    if r < 0 then pure (r, prevBlockno)
    else do
      (if addr ≠ childBlockno then lift (m.setAddr blockno beginno childBlockno) else pure ())
      pure (0, blockno)

/-- `truncate_block_zero_leaf` at height 0 and `truncate_block_zero_indir` above. -/
def truncateHeight : (height maxNblocks prevBlockno start fin : Nat) → CrawlM W (Int × Nat)
  | 0, _, prevBlockno, start, fin => truncateBlockZeroLeaf m prevBlockno start fin
  | height + 1, maxNblocks, prevBlockno, start, fin => do
      let childMaxNblocks := maxNblocks / blocknosPerIndir
      let childMaxNbytes := nbytesOfBlocks childMaxNblocks
      if childMaxNbytes = 0 then throw .sigfpe
      else do
        let beginno := start / childMaxNbytes
        let endno := u64 (fin + childMaxNbytes - 1) / childMaxNbytes
        let aligned := start % childMaxNbytes = 0
        let blockno ← lift (m.cowBlock prevBlockno 0 0 (if aligned then beginno * 8 else beginno * 8 + 8))
        if blockno = blocknoInvalid then pure (-enospc, prevBlockno)
        else do
          clearEntries m blockno (endno - (beginno + 1)) (beginno + 1)
          if aligned then do
            lift (m.setAddr blockno beginno blocknoInvalid)
            pure (0, blockno)
          else truncateBoundary m (fun addr => truncateHeight height childMaxNblocks addr (start - beginno * childMaxNbytes)
            (min (fin - beginno * childMaxNbytes) childMaxNbytes)) prevBlockno blockno beginno

def treeRootHeight (root : RootPtr) : CrawlM W (Fin 8) := do
  let nbytes ← lift (m.nbytes root)
  if nbytes = 0 then pure 0 else lift (m.height root)

def treeRootAddr (root : RootPtr) : CrawlM W Nat := do
  let nbytes ← lift (m.nbytes root)
  if nbytes = 0 then pure blocknoInvalid else lift (m.rootAddr root)

/-- The part of `truncate_block_zero` below the root. -/
def truncateBelow (height : Fin 8) (newBlockno childBlockno start fin : Nat) : CrawlM W (Int × Nat) :=
  if start = 0 then pure (0, blocknoInvalid)
  else below m newBlockno (truncateHeight m height (treeMaxNblocks height) childBlockno start fin)

def truncateBlockZero (root : RootPtr) (start fin blockno : Nat) : CrawlM W (Int × Nat) := do
  let height ← treeRootHeight m root
  let maxNbytes := nbytesOfBlocks (treeMaxNblocks height)
  let nbytes ← lift (m.nbytes root)
  let childBlockno ← treeRootAddr m root
  let fin := min (if fin = bpfsEof then maxNbytes else fin) maxNbytes
  if maxNbytes ≤ nbytes ∨ fin < start ∨ childBlockno = blocknoInvalid then pure (0, blockno)
  else do
    let newBlockno ← lift (m.cowBlockEntire blockno)
    if newBlockno = blocknoInvalid then pure (-enospc, blockno)
    else do
      -- the copy of the root has the height of the root
      let (r, childNewBlockno) ← truncateBelow m height newBlockno childBlockno start fin
      if r < 0 then pure (r, blockno)
      else do
        lift (m.setRoot ⟨newBlockno, root.off⟩ childNewBlockno nbytes)
        pure (0, newBlockno)

/-! ### `crawl_tree` and the crawls of inodes -/

/-- Grow the tree to the height the range needs. -/
def growTree (root : RootPtr) (newHeight blockno : Nat) : CrawlM W (Int × Nat) := do
  let height ← treeRootHeight m root
  if height.val < newHeight then lift (m.treeChangeHeight root newHeight blockno) else pure (0, blockno)

/-- The part of `crawl_tree_ref` before the crawl. -/
def crawlTreePrepare (root : RootPtr) (off fin prevBlockno : Nat) : CrawlM W (Int × Nat) := do
  let nbytes ← lift (m.nbytes root)
  let height ← treeRootHeight m root
  let newHeight := max height.val (treeHeight (nblocksForNbytes fin))
  let intValid := min nbytes (u64 (blockSize * treeMaxNblocks newHeight))
  let (r, newBlockno) ← growTree m root newHeight prevBlockno
  if r < 0 then pure (r, prevBlockno)
  else if intValid < off then truncateBlockZero m ⟨newBlockno, root.off⟩ intValid off newBlockno
  else pure (0, newBlockno)

/-- The part of `crawl_tree_ref` after the crawl: the root gets its new address and length, in a copy unless the block is
new or not referred to yet. -/
def crawlTreeFinish (root : RootPtr) (fin prevBlockno newBlockno childNewBlockno : Nat) (commit : Write) (refed : Bool)
    (r : Int) : CrawlM W (Int × Nat) := do
  let addr ← treeRootAddr m ⟨newBlockno, root.off⟩
  let nbytes ← lift (m.nbytes ⟨newBlockno, root.off⟩)
  if r < 0 then pure (r, prevBlockno)
  else if addr ≠ childNewBlockno ∨ nbytes < fin ∨ prevBlockno ≠ newBlockno then do
    let copy ← (if prevBlockno ≠ newBlockno ∨ ¬refed ∨ commit = .free then pure newBlockno
      else lift (m.cowBlockEntire newBlockno))
    if copy = blocknoInvalid then pure (-enospc, prevBlockno)
    else do
      lift (m.setRoot ⟨copy, root.off⟩ childNewBlockno (max nbytes fin))
      pure (r, copy)
  else pure (r, prevBlockno)

/-- The crawl itself, below the block that has the root. -/
def crawlTreeBelow (root : RootPtr) (off size : Nat) (commit : Write) (callback : Callback W) (newBlockno : Nat) :
    CrawlM W (Int × Nat) := do
  let addr ← treeRootAddr m ⟨newBlockno, root.off⟩
  let height ← lift (m.height ⟨newBlockno, root.off⟩)
  let nbytes ← lift (m.nbytes ⟨newBlockno, root.off⟩)
  let maxNblocks := treeMaxNblocks height
  let valid := min nbytes (nbytesOfBlocks maxNblocks)
  below m newBlockno (if height.val = 0 ∧ size = 0 then pure (0, addr)
    else crawlHeight m callback off height maxNblocks addr (if height.val = 0 then 0 else off / blockSize) off size valid commit)

def crawlTreeRef (root : RootPtr) (off size : Nat) (commit : Write) (callback : Callback W) (prevBlockno : Nat)
    (refed : Bool) : CrawlM W (Int × Nat) := do
  let nbytes ← lift (m.nbytes root)
  let off := if off = bpfsEof then nbytes else off
  let size := if size = bpfsEof then usub nbytes off else size
  let fin := u64 (off + size)
  let (r, newBlockno) ← crawlTreePrepare m root off fin prevBlockno
  if r < 0 then pure (r, prevBlockno)
  else do
    let (r, childNewBlockno) ← crawlTreeBelow m root off size commit callback newBlockno
    crawlTreeFinish m root fin prevBlockno newBlockno childNewBlockno commit refed r

def crawlTree (root : RootPtr) (off size : Nat) (commit : Write) (callback : Callback W) (prevBlockno : Nat) :
    CrawlM W (Int × Nat) := crawlTreeRef m root off size commit callback prevBlockno true

def crawlInodes (off size : Nat) (commit : Write) (callback : Callback W) : CrawlM W Int := do
  let superBlockno ← lift m.superBlockno
  let addr ← lift m.inodeRootAddr
  let (r, childBlockno) ← below m superBlockno (crawlTree m ⟨addr, 0⟩ off size commit callback addr)
  if 0 ≤ r ∧ childBlockno ≠ addr then do
    lift (m.setInodeRootAddr childBlockno)
    pure r
  else pure r

/-- `sizeof(struct bpfs_inode)`, and where its tree root is. -/
def inodeSize : Nat := 128

def inodeRootOff : Nat := 32

/-- `crawl_callback_inode`: offset of the inode in its block, commit mode and block number. -/
abbrev InodeCallback (W : Type) := Nat → Write → Nat → CrawlM W (Int × Nat)

def crawlInode (inoOff : Nat) (commit : Write) (callback : InodeCallback W) : CrawlM W Int :=
  crawlInodes m inoOff inodeSize commit fun _ off _ _ _ commit blockno => callback off commit blockno

/-- What a callback does that works on the blocks it is given. -/
abbrev LeafAct (W : Type) := Nat → Nat → Nat → Nat → Nat → Write → Nat → Act W (Int × Nat)

def plain (act : LeafAct W) : Callback W :=
  fun blockoff off size valid crawlStart commit blockno => lift (act blockoff off size valid crawlStart commit blockno)

def crawlData (inoOff off size : Nat) (commit : Write) (act : LeafAct W) : CrawlM W Int :=
  crawlInode m inoOff commit fun inodeOff commit blockno =>
    crawlTree m ⟨blockno, inodeOff + inodeRootOff⟩ off size commit (plain act) blockno

/-- One of the two writes of `crawl_data_2`. -/
structure DataWrite (W : Type) where
  ino : Nat
  inoOff : Nat
  off : Nat
  size : Nat
  act : LeafAct W

def DataWrite.callback (d : DataWrite W) : Callback W := plain d.act

/-- The second write of `callback_crawl_data_2_tree`, and the first when both are in one block. -/
def callTree (d : DataWrite W) (blockoff valid crawlStart prevBlockno blockno : Nat) : CrawlM W (Int × Nat) :=
  d.callback blockoff (d.off % blockSize) d.size valid crawlStart (if blockno = prevBlockno then .copy else .free) blockno

/-- `callback_crawl_data_2_tree`. -/
def callbackCrawlData2Tree (d0 d1 : DataWrite W) : Callback W :=
  fun blockoff off size valid crawlStart _ prevBlockno => do
    let firstOffset := blockoff * blockSize + off
    let (r, blockno) ← (if firstOffset = d0.off then callTree d0 blockoff valid crawlStart prevBlockno prevBlockno
      else pure (0, prevBlockno))
    if r < 0 then pure (r, blockno)
    else do
      let (r, blockno) ← (if firstOffset + size = d1.off + d1.size then
          callTree d1 blockoff valid crawlStart prevBlockno blockno
        else pure (0, blockno))
      pure (if r < 0 then r else 0, blockno)

/-- `callback_crawl_data_2`. -/
def callbackCrawlData2 (d0 d1 : DataWrite W) : Callback W :=
  fun blockoff off size _ _ commit blockno =>
    let firstOffset := blockoff * blockSize + off
    let lastOff := usub (off + size) inodeSize
    let first := firstOffset = d0.inoOff
    let last := usub (firstOffset + size) inodeSize = d1.inoOff
    if first ∧ last then
      if d0.ino = d1.ino then
        crawlTree m ⟨blockno, off + inodeRootOff⟩ d0.off (d1.off - d0.off + d1.size) commit
          (callbackCrawlData2Tree d0 d1) blockno
      else do
        let (r, newBlockno) ← crawlTree m ⟨blockno, off + inodeRootOff⟩ d0.off d0.size .copy d0.callback blockno
        if r < 0 then pure (r, newBlockno)
        else crawlTreeRef m ⟨newBlockno, lastOff + inodeRootOff⟩ d1.off d1.size .copy d1.callback newBlockno false
    else if first then crawlTree m ⟨blockno, off + inodeRootOff⟩ d0.off d0.size commit d0.callback blockno
    else if last then crawlTree m ⟨blockno, lastOff + inodeRootOff⟩ d1.off d1.size commit d1.callback blockno
    else pure (0, blockno)

/-- `crawl_data_2`, with the two writes in order. -/
def crawlData2 (d0 d1 : DataWrite W) (commit : Write) : CrawlM W Int :=
  crawlInodes m d0.inoOff (d1.inoOff + inodeSize - d0.inoOff) commit (callbackCrawlData2 m d0 d1)

/-- How `callback_setattr` changes the size. -/
def resize (root : RootPtr) (nbytes blockno : Nat) : Option Nat → CrawlM W Int
  | none => pure 0
  | some size =>
      if nbytes < size then Prod.fst <$> truncateBlockZero m root nbytes bpfsEof blockno
      else if nblocksForNbytes size < nblocksForNbytes nbytes then
        Prod.fst <$> lift (m.treeChangeHeight root (treeHeight (nblocksForNbytes size)) blockno)
      else pure 0

/-- `callback_setattr`: `copied` says whether the attributes need a copy, `size` is the new size if there is one, and `attrs`
writes the rest. -/
def callbackSetattr (copied : Bool) (size : Option Nat) (attrs : Nat → Act W Unit) : InodeCallback W :=
  fun off commit blockno => do
    let newBlockno ← (if commit ≠ .free ∧ copied then lift (m.cowBlockEntire blockno) else pure blockno)
    if newBlockno = blocknoInvalid then pure (-enospc, blockno)
    else do
      let root : RootPtr := ⟨newBlockno, off + inodeRootOff⟩
      let nbytes ← lift (m.nbytes root)
      let r ← resize m root nbytes newBlockno size
      if r < 0 then pure (r, blockno)
      else do
        lift (attrs newBlockno)
        pure (0, newBlockno)

/-- `callback_addrem_dirent`: `dir` says whether the entry is a directory, so that the link count changes. -/
def callbackAddremDirent (dir : Bool) (direntOff : Nat) (nlinks : Nat → Act W Unit) (act : LeafAct W) :
    InodeCallback W := fun off commit blockno => do
  let newBlockno ← (if dir ∧ commit = .copy then lift (m.cowBlockEntire blockno) else pure blockno)
  if newBlockno = blocknoInvalid then pure (-enospc, blockno)
  else do
    (if dir then lift (nlinks newBlockno) else pure ())
    let (r, newBlockno) ← crawlTree m ⟨newBlockno, off + inodeRootOff⟩ direntOff 1 commit (plain act) newBlockno
    pure (if r < 0 then (r, blockno) else (0, newBlockno))

/-- The calls that start a writing crawl. `plainInode` stands for the callbacks that change an inode in its block only. -/
inductive Call (W : Type) where
  | inodes (off size : Nat) (commit : Write) (act : LeafAct W)
  | plainInode (inoOff : Nat) (commit : Write) (act : Nat → Write → Nat → Act W (Int × Nat))
  | setattr (inoOff : Nat) (commit : Write) (copied : Bool) (size : Option Nat) (attrs : Nat → Act W Unit)
  | addremDirent (inoOff : Nat) (commit : Write) (dir : Bool) (direntOff : Nat) (nlinks : Nat → Act W Unit)
      (act : LeafAct W)
  | data (inoOff off size : Nat) (commit : Write) (act : LeafAct W)
  | data2 (d0 d1 : DataWrite W) (commit : Write)

def Call.run : Call W → CrawlM W Int
  | .inodes off size commit act => crawlInodes m off size commit (plain act)
  | .plainInode inoOff commit act => crawlInode m inoOff commit fun off commit blockno => lift (act off commit blockno)
  | .setattr inoOff commit copied size attrs => crawlInode m inoOff commit (callbackSetattr m copied size attrs)
  | .addremDirent inoOff commit dir direntOff nlinks act =>
      crawlInode m inoOff commit (callbackAddremDirent m dir direntOff nlinks act)
  | .data inoOff off size commit act => crawlData m inoOff off size commit act
  | .data2 d0 d1 commit => crawlData2 m d0 d1 commit

end Bpfs.CrawlStack
