import Bpfs.State
import Mathlib.Data.Finmap

/-! Copy on write in the builds with INDIRECT_COW: a new copy is first made in DRAM, and
indirect_cow.c keeps a record of each copied or visited block, linked to its parent's record. The
hash maps are the finite maps that hash_map.c implements. The contents of the blocks are left
out, since no decision here depends on them. -/

namespace Bpfs.IndirectCow
open Lib

def blocknoSuper2 : Nat := 2

/-- `struct block`; pointers to records are addresses. -/
structure CowBlock where
  origBlkno : Nat
  cowBlkno : Nat
  dram : Option Nat
  required : Bool
  parent : Option Nat
  childrenAll : Option Nat
  childAllNext : Option Nat
  childrenCow : Option Nat
  childCowNext : Option Nat
  deriving DecidableEq, Repr

structure CowState where
  blockAlloc : Bitmap
  /-- the records in memory -/
  blocks : Nat → Option CowBlock
  blknoMapOrig : Finmap fun _ : Nat => Nat
  blknoMapCow : Finmap fun _ : Nat => Nat
  /-- `parent_stack`, the top first -/
  parentStack : List Nat

inductive CowErr where
  | assertion
  /-- a null pointer or a freed record is used -/
  | segfault
  deriving DecidableEq, Repr

abbrev CowM := EStateM CowErr CowState

/-- What the allocations of one copy return: the record, the buffer, and whether the two hash map
inserts have memory. -/
structure CowMem where
  record : Option Nat
  dram : Option Nat
  orig : Bool
  cow : Bool
  deriving DecidableEq, Repr

def enomem : Int := 12

def assert (c : Prop) [Decidable c] : CowM Unit := if c then pure () else throw .assertion

def deref (block : Nat) : CowM CowBlock := do
  let s ← get
  match s.blocks block with
  | none => throw .segfault
  | some b => pure b

def put (block : Nat) (b : Option CowBlock) : CowM Unit :=
  modify fun s => { s with blocks := Function.update s.blocks block b }

def parentGet : CowM (Option Nat) := do
  let s ← get
  pure s.parentStack.head?

def blockGetEither (blkno : Nat) : CowM (Option Nat) := do
  let s ← get
  match s.blknoMapCow.lookup blkno with
  | some block => pure (some block)
  | none =>
      match s.blknoMapOrig.lookup blkno with
      | none => pure none
      | some block => do
          let b ← deref block
          assert (b.cowBlkno = blocknoInvalid)
          pure (some block)

/-- `block_create`, when `malloc` returns `record`. -/
def blockCreate (origBlkno cowBlkno : Nat) (record : Option Nat) : CowM (Option Nat) := do
  let parent ← parentGet
  let first ← blockGetEither origBlkno
  assert (first = none)
  let second ← blockGetEither cowBlkno
  assert (second = none)
  match record, parent with
  | none, _ => pure none
  | some block, none => do
      assert (origBlkno = blocknoSuper)
      put block (some ⟨origBlkno, cowBlkno, none, false, none, none, none, none, none⟩)
      pure (some block)
  | some block, some parent => do
      assert (origBlkno ≠ blocknoSuper)
      let p ← deref parent
      assert (p.origBlkno ≠ blocknoSuper ∨ p.childrenAll = none)
      put block (some ⟨origBlkno, cowBlkno, none, false, some parent, none, p.childrenAll, none,
        if cowBlkno = blocknoInvalid then none else p.childrenCow⟩)
      put parent (some { p with
        childrenAll := some block
        childrenCow := if cowBlkno = blocknoInvalid then p.childrenCow else some block })
      pure (some block)

/-- The label `abort`; the record's buffer is freed. -/
def abortCow (block : Option Nat) (newBlock : Bool) (origBlkno cowBlkno : Nat) : CowM Int :=
  match block with
  | none => throw .segfault
  | some block => do
      let b ← deref block
      put block (some { b with cowBlkno := blocknoInvalid })
      modify fun s => { s with blknoMapCow := s.blknoMapCow.erase cowBlkno }
      if newBlock then do
        modify fun s => { s with blknoMapOrig := s.blknoMapOrig.erase origBlkno }
        put block none
        pure (-enomem)
      else pure (-enomem)

/-- A record that exists already becomes that of a copy. -/
def blockReuse (block cowBlkno : Nat) : CowM (Option Nat) := do
  let parent ← parentGet
  let b ← deref block
  assert (b.cowBlkno = blocknoInvalid)
  assert (b.childCowNext = none)
  put block (some { b with cowBlkno := cowBlkno })
  assert (b.parent = parent)
  match parent with
  | none => pure (some block)
  | some parent => do
      assert (b.origBlkno ≠ blocknoSuper)
      let p ← deref parent
      let b ← deref block
      put block (some { b with childCowNext := p.childrenCow })
      let p ← deref parent
      put parent (some { p with childrenCow := some block })
      pure (some block)

/-- A new record is entered in `blkno_map_orig`. -/
def enterOrig (block : Nat) (newBlock : Bool) (origBlkno : Nat) : CowM Unit :=
  if newBlock then do
    let s ← get
    assert (s.blknoMapOrig.lookup origBlkno = none)
    modify fun s => { s with blknoMapOrig := s.blknoMapOrig.insert origBlkno block }
  else pure ()

def enterCow (block cowBlkno : Nat) : CowM Unit := do
  let s ← get
  assert (s.blknoMapCow.lookup cowBlkno = none)
  modify fun s => { s with blknoMapCow := s.blknoMapCow.insert cowBlkno block }

/-- The hash map inserts of `indirect_cow_block_cow`. -/
def blockEnter (block : Nat) (newBlock : Bool) (origBlkno cowBlkno : Nat) (mem : CowMem) : CowM Int :=
  if newBlock && !mem.orig then abortCow (some block) newBlock origBlkno cowBlkno
  else do
    enterOrig block newBlock origBlkno
    if mem.cow then do
      enterCow block cowBlkno
      pure 0
    else abortCow (some block) newBlock origBlkno cowBlkno

/-- The superblock has one child at most. -/
def checkParent : Option Nat → CowM Unit
  | none => pure ()
  | some parent => do
      let p ← deref parent
      assert (p.origBlkno ≠ blocknoSuper ∨ p.childrenCow = none)

/-- The record for the copy, new or not. -/
def blockFor (found : Option Nat) (origBlkno cowBlkno : Nat) (record : Option Nat) : CowM (Option Nat) :=
  match found with
  | none => blockCreate origBlkno cowBlkno record
  | some block => blockReuse block cowBlkno

def indirectCowBlockCow (origBlkno cowBlkno : Nat) (mem : CowMem) : CowM Int := do
  let parent ← parentGet
  let s ← get
  let found := s.blknoMapOrig.lookup origBlkno
  assert (origBlkno ≠ blocknoInvalid)
  assert (cowBlkno ≠ blocknoInvalid)
  assert (cowBlkno ≠ blocknoSuper)
  assert (origBlkno ≠ blocknoSuper2)
  assert (cowBlkno ≠ blocknoSuper2)
  checkParent parent
  let block ← blockFor found origBlkno cowBlkno mem.record
  match block, mem.dram with
  | some block, some dram => do
      let b ← deref block
      put block (some { b with dram := some dram })
      blockEnter block found.isNone origBlkno cowBlkno mem
  | block, _ => abortCow block found.isNone origBlkno cowBlkno

/-! ### The callers -/

def allocBlock : CowM Nat := do
  let s ← get
  let (no, bm) := s.blockAlloc.alloc
  modify fun s => { s with blockAlloc := bm }
  if no = s.blockAlloc.ntotal then pure blocknoInvalid
  else do
    assert (blocknoFirstAlloc ≤ no + 1)
    pure (no + 1)

/-- A step of the bitmap that may fail an assertion. -/
def bitmapStep (f : Bitmap → Option Bitmap) : CowM Unit := do
  let s ← get
  match f s.blockAlloc with
  | none => throw .assertion
  | some bm => modify fun s => { s with blockAlloc := bm }

def unallocBlock (blockno : Nat) : CowM Unit := do
  assert (blockno ≠ blocknoInvalid)
  assert (blocknoFirstAlloc ≤ blockno)
  bitmapStep fun bm => bm.unalloc (blockno - 1)

/-- A disk block number is ignored. -/
def setBlock (blockno : Nat) : CowM Unit :=
  if blockno.testBit 63 then pure ()
  else do
    assert (blockno ≠ blocknoInvalid)
    bitmapStep fun bm => bm.set (blockno - 1)

def freeBlock (blockno : Nat) : CowM Unit :=
  if blockno.testBit 63 then pure ()
  else do
    assert (blockno ≠ blocknoInvalid)
    assert (blockno = blocknoSuper ∨ blocknoFirstAlloc ≤ blockno)
    bitmapStep fun bm => bm.free (blockno - 1)

def blockFreshlyAlloced (blockno : Nat) : CowM Bool := do
  let s ← get
  pure (s.blockAlloc.allocs.contains (blockno - 1))

/-- What `cow_block` and `cow_block_entire` have in common. -/
def cowBlockWith (oldBlockno : Nat) (mem : CowMem) : CowM Nat := do
  let fresh ← blockFreshlyAlloced oldBlockno
  if fresh then pure oldBlockno
  else do
    let newBlockno ← allocBlock
    if newBlockno = blocknoInvalid then pure blocknoInvalid
    else do
      let r ← indirectCowBlockCow oldBlockno newBlockno mem
      if r < 0 then do
        unallocBlock newBlockno
        setBlock oldBlockno
        pure blocknoInvalid
      else do
        freeBlock oldBlockno
        pure newBlockno

def cowBlock (oldBlockno off size valid : Nat) (mem : CowMem) : CowM Nat := do
  assert (off + size ≤ blockSize)
  assert (valid ≤ blockSize)
  cowBlockWith oldBlockno mem

def cowBlockEntire (oldBlockno : Nat) (mem : CowMem) : CowM Nat := cowBlockWith oldBlockno mem

end Bpfs.IndirectCow
