import Bpfs.DirBlock
import Bpfs.Lib.Wp
import Mathlib.Data.Finset.Basic

/-! Directories: the inodes with the blocks of their directories, the directory entry cache, and the
operations on names. The data of other inodes, owners, times and generations are left out, since no
operation on names depends on them. -/

namespace Bpfs.Dir
open Lib

/-- A file name as it arrives from the kernel: a C string. -/
structure Name where
  bytes : List UInt8
  nonzero : (0 : UInt8) ∉ bytes

/-- `strlen(name) + 1`. -/
def Name.len (name : Name) : Nat := name.bytes.length + 1

structure Inode where
  mode : Nat
  nlinks : Nat
  /-- the blocks of a directory -/
  blocks : List Block

/-- `struct mdirent`; its name is the key under which the cache has it. -/
structure MDirent where
  off : Nat
  ino : Nat
  recLen : Nat
  fileType : UInt8
  deriving DecidableEq, Repr

/-- `struct mdirectory`. -/
structure MDirectory where
  ino : Nat
  dirents : List UInt8 → Option MDirent
  /-- `free_dirents`: offsets and lengths -/
  free : List (Nat × Nat)

structure Volume where
  /-- how many inodes the inode tree has room for -/
  ninodes : Nat
  inodes : Nat → Inode
  /-- the inode bitmap -/
  used : Finset Nat
  /-- the cached directories, the least recently used first -/
  dcache : List MDirectory

inductive DirErr where
  | assertion
  /-- an `mdirent` is used after it was freed -/
  | dangling
  /-- a name is copied beyond the end of its block -/
  | overrun
  | einval
  | enoent
  | eexist
  | enametoolong
  | emlink
  | enotempty
  | enospc
  | enosys
  deriving DecidableEq, Repr

abbrev DirM := EStateM DirErr Volume

def assert (c : Prop) [Decidable c] : DirM Unit := if c then pure () else throw .assertion

/-- `BPFS_S_ISDIR`. -/
def Inode.isDir (inode : Inode) : Bool := inode.mode % 65536 / 4096 == 4

/-- `f2b_filetype`; the mode bits of inodes and of `mode_t` are the same. -/
def f2bFiletype (mode : Nat) : Option UInt8 :=
  match mode % 65536 / 4096 with
  | 12 => some typeSock
  | 10 => some typeSymlink
  | 8 => some typeFile
  | 6 => some typeBlkdev
  | 4 => some typeDir
  | 2 => some typeChrdev
  | 1 => some typeFifo
  | _ => none

/-- `get_inode`. -/
def getInode (ino : Nat) : DirM Inode := do
  let v ← get
  assert (1 ≤ ino ∧ ino ≤ v.ninodes)
  pure (v.inodes ino)

def setInode (ino : Nat) (inode : Inode) : DirM Unit :=
  modify fun v => { v with inodes := Function.update v.inodes ino inode }

/-! ### The cache -/

def nmdirsMax : Nat := 1024

namespace Dcache

/-- `hash_map_find_val(dcache.directories, ino)`. -/
def find (c : List MDirectory) (ino : Nat) : Option MDirectory := c.find? (fun m => m.ino == ino)

def erase (c : List MDirectory) (ino : Nat) : List MDirectory := c.filter (fun m => m.ino != ino)

/-- Replace the directory and make it the most recently used. -/
def touch (c : List MDirectory) (m : MDirectory) : List MDirectory := erase c m.ino ++ [m]

/-- Replace the directory where it stands. -/
def put (c : List MDirectory) (m : MDirectory) : List MDirectory :=
  c.map (fun x => if x.ino = m.ino then m else x)

end Dcache

def findDir (ino : Nat) : DirM MDirectory := do
  let v ← get
  match Dcache.find v.dcache ino with
  | none => throw .assertion
  | some m => pure m

def touchDir (m : MDirectory) : DirM Unit := modify fun v => { v with dcache := Dcache.touch v.dcache m }

def putDir (m : MDirectory) : DirM Unit := modify fun v => { v with dcache := Dcache.put v.dcache m }

def dcacheHasDir (ino : Nat) : DirM Bool := do
  let v ← get
  pure (Dcache.find v.dcache ino).isSome

/-- `dcache_add_dir`; the least recently used directory makes room. -/
def dcacheAddDir (ino : Nat) : DirM Unit := do
  let has ← dcacheHasDir ino
  assert (has = false)
  modify fun v =>
    { v with dcache := (if v.dcache.length = nmdirsMax then v.dcache.tail else v.dcache) ++ [⟨ino, fun _ => none, []⟩] }

def dcacheRemDir (ino : Nat) : DirM Unit := do
  let _ ← findDir ino
  modify fun v => { v with dcache := Dcache.erase v.dcache ino }

def dcacheAddDirent (parentIno : Nat) (name : List UInt8) (md : MDirent) : DirM Unit := do
  let m ← findDir parentIno
  assert (m.dirents name = none)
  touchDir { m with dirents := Function.update m.dirents name (some md) }

def dcacheGetDirent (parentIno : Nat) (name : List UInt8) : DirM (Option MDirent) := do
  let m ← findDir parentIno
  touchDir m
  pure (m.dirents name)

def dcacheRemDirent (parentIno : Nat) (name : List UInt8) : DirM Unit := do
  let m ← findDir parentIno
  touchDir { m with dirents := Function.update m.dirents name none }
  if (m.dirents name).isNone then throw .einval else pure ()

def dcacheAddFree (parentIno off recLen : Nat) : DirM Unit := do
  let m ← findDir parentIno
  putDir { m with free := (off, recLen) :: m.free }

/-- `dcache_take_free`: the first free record that is long enough; the length is passed as 16 bits. -/
def dcacheTakeFree (parentIno minRecLen : Nat) : DirM (Option Nat) := do
  let m ← findDir parentIno
  match m.free.find? (fun f => minRecLen % 65536 ≤ f.2) with
  | none => pure none
  | some f => do
      putDir { m with free := m.free.erase f }
      pure (some f.1)

/-- What a pointer to the entry's `mdirent` points at. No operation drops a directory from the cache and loads it again
while it holds a pointer into it, so the entry is the one the pointer was taken from as long as there is one. -/
def deref (parentIno : Nat) (name : List UInt8) : DirM MDirent := do
  let v ← get
  match (Dcache.find v.dcache parentIno).bind (fun m => m.dirents name) with
  | none => throw .dangling
  | some md => pure md

/-! ### Entries -/

/-- The block of the directory's data that has the offset. -/
def getBlock (ino off : Nat) : DirM Block := do
  let inode ← getInode ino
  match inode.blocks[off / blockSize]? with
  | none => throw .assertion
  | some b => pure b

/-- Change the block of the directory's data that has the offset. -/
def editBlock (ino off : Nat) (f : Block → Block) : DirM Unit := do
  let inode ← getInode ino
  assert (off / blockSize < inode.blocks.length)
  setInode ino { inode with blocks := inode.blocks.modify (off / blockSize) f }

/-- The loop of `callback_load_directory` over at most `n` records of block number `i` from `off` on. -/
def loadLoop (parentIno i : Nat) (b : Block) : Nat → Nat → DirM Unit
  | 0, _ => pure ()
  | n + 1, off =>
      if off + direntMinLen ≤ blockSize then do
        assert (off % direntAlign = 0)
        if b.recLen off = 0 then dcacheAddFree parentIno (i * blockSize + off) (blockSize - off)
        else do
          assert (off + b.recLen off ≤ blockSize)
          if b.ino off = inoInvalid then loadLoop parentIno i b n (off + b.recLen off)
          else do
            assert (direntLen (b.nameLen off).toNat ≤ b.recLen off)
            let _ ← getInode (b.ino off)
            dcacheAddDirent parentIno (b.name off) ⟨i * blockSize + off, b.ino off, b.recLen off, b.fileType off⟩
            loadLoop parentIno i b n (off + b.recLen off)
      else pure ()

/-- `crawl_data` of the whole directory with `callback_load_directory`, from block number `i` on. -/
def loadBlocks (parentIno : Nat) : Nat → List Block → DirM Unit
  | _, [] => pure ()
  | i, b :: bs => do
      loadLoop parentIno i b blockSize 0
      loadBlocks parentIno (i + 1) bs

/-- The first part of `find_dirent`: bring the directory into the cache. -/
def loadDirectory (parentIno : Nat) : DirM Unit := do
  let has ← dcacheHasDir parentIno
  if has then pure ()
  else do
    dcacheAddDir parentIno
    let inode ← getInode parentIno
    loadBlocks parentIno 0 inode.blocks

/-- `find_dirent`: whether there is an entry; it is then in the cache. -/
def findDirent (parentIno : Nat) (name : Name) : DirM Bool := do
  loadDirectory parentIno
  let md ← dcacheGetDirent parentIno name.bytes
  pure md.isSome

/-- `get_dirent`, as the record it points at. -/
def getDirent (parentIno off : Nat) : DirM Rec := do
  let inode ← getInode parentIno
  assert (inode.nlinks ≠ 0)
  assert (off + direntMinLen ≤ blockSize * inode.blocks.length)
  let b ← getBlock parentIno off
  assert (off % blockSize + b.recLen (off % blockSize) ≤ blockSize)
  pure (b.decode (off % blockSize))

/-- `mdirent_init_dirent`. -/
def mdirentInit (d : Rec) (off : Nat) : DirM MDirent := do
  let _ ← getInode d.ino
  pure ⟨off, d.ino, d.len, d.type⟩

/-- The part of `callback_dirent_plug` for a record of length 0: cut one off and leave the rest free. -/
def plugTail (parentIno i off minHoleSize : Nat) : DirM Unit := do
  let nextOff := off + minHoleSize
  if nextOff + direntMinLen ≤ blockSize then do
    editBlock parentIno (i * blockSize + off) (fun b => b.setRecLen nextOff 0)
    dcacheAddFree parentIno (i * blockSize + nextOff) (blockSize - nextOff)
    editBlock parentIno (i * blockSize + off) (fun b => (b.setIno off inoInvalid).setRecLen off minHoleSize)
  else editBlock parentIno (i * blockSize + off) (fun b => (b.setIno off inoInvalid).setRecLen off minHoleSize)

/-- `callback_dirent_plug` at offset `off` of block number `i`. -/
def callbackDirentPlug (parentIno i off : Nat) (name : Name) : DirM Unit := do
  let b ← getBlock parentIno (i * blockSize + off)
  let minHoleSize := direntLen name.len
  assert (off % direntAlign = 0)
  assert (off + minHoleSize ≤ blockSize)
  assert (b.recLen off = 0 ∨ minHoleSize ≤ b.recLen off)
  assert (off + b.recLen off ≤ blockSize)
  if b.recLen off = 0 then do
    plugTail parentIno i off minHoleSize
    editBlock parentIno (i * blockSize + off) (fun b => b.putName off name.bytes)
  else editBlock parentIno (i * blockSize + off) (fun b => b.putName off name.bytes)

/-- `callback_dirent_append`, on a block with the bytes `fresh`. -/
def callbackDirentAppend (parentIno : Nat) (name : Name) (fresh : Block) : DirM Nat := do
  let inode ← getInode parentIno
  let off := inode.blocks.length * blockSize
  let holeSize := direntLen name.len
  if holeSize + direntMinLen ≤ blockSize then do
    dcacheAddFree parentIno (off + holeSize) (blockSize - holeSize)
    setInode parentIno { inode with
      blocks := inode.blocks ++ [((fresh.setRecLen holeSize 0).setRecLen 0 holeSize).putName 0 name.bytes] }
    pure off
  else if blockSize < 12 + name.len then throw .overrun
  else do
    setInode parentIno { inode with
      blocks := inode.blocks ++ [(fresh.setRecLen 0 holeSize).putName 0 name.bytes] }
    pure off

/-- `alloc_dirent`, with the offset of the entry. `fresh` is what `alloc_block` gives: the bytes of a free block, if
there is one. -/
def allocDirent (parentIno : Nat) (name : Name) (fresh : Option Block) : DirM Nat := do
  let free ← dcacheTakeFree parentIno (direntLen name.len)
  match free with
  | some off => do
      callbackDirentPlug parentIno (off / blockSize) (off % blockSize) name
      pure off
  | none =>
      match fresh with
      | none => throw .enospc
      | some b => callbackDirentAppend parentIno name b

/-- `callback_set_dirent_ino`. -/
def setDirentIno (parentIno off ino : Nat) : DirM Unit := do
  assert (off % blockSize % direntAlign = 0)
  editBlock parentIno off (fun b => b.setIno (off % blockSize) ino)

/-- `dirent->file_type = fileType`. -/
def setDirentType (parentIno off : Nat) (fileType : UInt8) : DirM Unit :=
  editBlock parentIno off (fun b => b.setType (off % blockSize) fileType)

/-- Enter the entry at `off` into the cache. -/
def cacheDirent (parentIno off : Nat) (name : Name) : DirM Unit := do
  let d ← getDirent parentIno off
  let md ← mdirentInit d off
  dcacheAddDirent parentIno name.bytes md

/-- `callback_change_nlinks` with a delta of 1. -/
def incNlinks (ino : Nat) : DirM Unit := do
  let inode ← getInode ino
  if inode.nlinks + 1 = 2 ^ 32 then throw .emlink
  else setInode ino { inode with nlinks := inode.nlinks + 1 }

/-- `callback_change_nlinks` with a delta of -1. -/
def decNlinks (ino : Nat) : DirM Unit := do
  let inode ← getInode ino
  assert (1 ≤ inode.nlinks)
  setInode ino { inode with nlinks := inode.nlinks - 1 }

/-! ### Operations -/

/-- `BPFS_DIRENT_MAX_NAME_LEN`. -/
def direntMaxNameLen : Nat := min (blockSize - 12) 256

/-- `alloc_inode`: any number that is free; the inode tree grows to have it. -/
def allocInode (ino : Nat) : DirM Unit := do
  let v ← get
  if ino ≠ inoInvalid ∧ ino < 2 ^ 64 ∧ ino ∉ v.used then
    modify fun v => { v with ninodes := max v.ninodes ino, used := insert ino v.used }
  else throw .enospc

/-- The new inode as `create_file` leaves it. The first block of a directory has the bytes `data` and no entry. -/
def initInode (ino mode : Nat) (data : Option Block) : DirM Unit :=
  match mode % 65536 / 4096, data with
  | 4, some b => setInode ino ⟨mode % 65536, 2, [b.setRecLen 0 0]⟩
  | 4, none => throw .enospc
  | 10, none => throw .enospc
  | _, _ => setInode ino ⟨mode % 65536, 1, []⟩

/-- `callback_addrem_dirent` for an addition. -/
def addDirent (parentIno off ino : Nat) (dir : Bool) : DirM Unit := do
  let inode ← getInode parentIno
  if dir then
    if inode.nlinks + 1 = 2 ^ 32 then throw .emlink
    else do
      assert (2 ≤ inode.nlinks + 1)
      setInode parentIno { inode with nlinks := inode.nlinks + 1 }
      setDirentIno parentIno off ino
  else setDirentIno parentIno off ino

/-- `callback_addrem_dirent` for a removal. -/
def remDirent (parentIno off : Nat) (dir : Bool) : DirM Unit := do
  let inode ← getInode parentIno
  if dir then do
    let nlinks := (inode.nlinks + 2 ^ 32 - 1) % 2 ^ 32
    assert (2 ≤ nlinks)
    setInode parentIno { inode with nlinks := nlinks }
    setDirentIno parentIno off inoInvalid
  else setDirentIno parentIno off inoInvalid

/-- `create_file`. -/
def createFile (parentIno : Nat) (name : Name) (mode ino : Nat) (fresh data : Option Block) : DirM Unit :=
  if direntMaxNameLen < name.len then throw .enametoolong
  else do
    let parent ← getInode parentIno
    assert (2 ≤ parent.nlinks)
    assert (parent.isDir)
    let found ← findDirent parentIno name
    if found then throw .eexist
    else do
      allocInode ino
      let off ← allocDirent parentIno name fresh
      match f2bFiletype mode with
      | none => throw .assertion
      | some fileType => do
          initInode ino mode data
          setDirentType parentIno off fileType
          addDirent parentIno off ino (fileType = typeDir)
          cacheDirent parentIno off name

/-- `fuse_mknod`. -/
def fuseMknod (parentIno : Nat) (name : Name) (mode ino : Nat) (fresh data : Option Block) : DirM Unit :=
  if mode % 65536 / 4096 = 6 ∨ mode % 65536 / 4096 = 2 then throw .enosys
  else createFile parentIno name mode ino fresh data

/-- `fuse_mkdir`. -/
def fuseMkdir (parentIno : Nat) (name : Name) (mode ino : Nat) (fresh data : Option Block) : DirM Unit :=
  createFile parentIno name (mode ||| 0x4000) ino fresh data

/-- `fuse_symlink`; the target of the link is in `data`. -/
def fuseSymlink (parentIno : Nat) (name : Name) (ino : Nat) (fresh data : Option Block) : DirM Unit :=
  createFile parentIno name 0xA1FF ino fresh data

/-- `fuse_create`. -/
def fuseCreate (parentIno : Nat) (name : Name) (mode ino : Nat) (fresh data : Option Block) : DirM Unit :=
  createFile parentIno name mode ino fresh data

/-- `free_inode`, as it is after the commit. -/
def freeInode (ino : Nat) : DirM Unit := do
  let v ← get
  assert (ino ∈ v.used)
  modify fun v => { v with used := v.used.erase ino }

/-- Drop a removed directory from the cache. -/
def forgetDir (ino : Nat) : DirM Unit := do
  let has ← dcacheHasDir ino
  if has then dcacheRemDir ino else pure ()

/-- `do_unlink_inode`. -/
def doUnlinkInode (ino : Nat) : DirM Unit := do
  let inode ← getInode ino
  assert (inode.nlinks ≠ 0)
  if inode.nlinks = 1 ∨ inode.isDir then do
    assert (¬inode.isDir ∨ inode.nlinks = 2)
    freeInode ino
    if inode.isDir then forgetDir ino else pure ()
  else decNlinks ino

/-- `do_unlink`, on the entry that `find_dirent` has found. -/
def doUnlink (parentIno : Nat) (name : Name) : DirM Unit := do
  let md ← deref parentIno name.bytes
  let inode ← getInode md.ino
  assert (inode.nlinks ≠ 0)
  remDirent parentIno md.off inode.isDir
  let md ← deref parentIno name.bytes
  doUnlinkInode md.ino
  let md ← deref parentIno name.bytes
  dcacheAddFree parentIno md.off md.recLen
  dcacheRemDirent parentIno name.bytes

/-- `fuse_unlink`. -/
def fuseUnlink (parentIno : Nat) (name : Name) : DirM Unit := do
  let found ← findDirent parentIno name
  if found then doUnlink parentIno name else throw .enoent

/-- The loop of `callback_empty_dir` over at most `n` records from `off` on: whether it comes to an entry. -/
def emptyLoop (parentIno : Nat) (b : Block) : Nat → Nat → DirM Bool
  | 0, _ => pure false
  | n + 1, off =>
      if off + direntMinLen ≤ blockSize ∧ b.recLen off ≠ 0 then do
        assert (off + b.recLen off ≤ blockSize)
        if b.ino off = inoInvalid ∨ b.ino off = parentIno then emptyLoop parentIno b n (off + b.recLen off)
        else pure true
      else pure false

/-- Whether one of the blocks has an entry. -/
def emptyBlocks (parentIno : Nat) : List Block → DirM Bool
  | [] => pure false
  | b :: bs => do
      let some ← emptyLoop parentIno b blockSize 0
      if some then pure true else emptyBlocks parentIno bs

/-- `fuse_rmdir`. -/
def fuseRmdir (parentIno : Nat) (name : Name) : DirM Unit := do
  let found ← findDirent parentIno name
  if found then do
    let md ← deref parentIno name.bytes
    let inode ← getInode md.ino
    let full ← emptyBlocks parentIno inode.blocks
    if full then throw .enotempty else doUnlink parentIno name
  else throw .enoent

/-- `fuse_link`. -/
def fuseLink (ino parentIno : Nat) (name : Name) (fresh : Option Block) : DirM Unit :=
  if direntMaxNameLen < name.len then throw .enametoolong
  else do
    let inode ← getInode ino
    assert (¬inode.isDir)
    assert (inode.nlinks ≠ 0)
    if inode.nlinks + 1 = 2 ^ 32 then throw .emlink
    else do
      let parent ← getInode parentIno
      assert (parent.nlinks ≠ 0)
      assert (parent.isDir)
      let found ← findDirent parentIno name
      if found then throw .eexist
      else do
        let off ← allocDirent parentIno name fresh
        incNlinks ino
        match f2bFiletype inode.mode with
        | none => throw .assertion
        | some fileType => do
            setDirentType parentIno off fileType
            setDirentIno parentIno off ino
            cacheDirent parentIno off name

/-- The entry that `fuse_rename` writes to: the existing one, with the inode that loses it, or a new one. -/
def renameTarget (srcParentIno : Nat) (srcName : Name) (dstParentIno : Nat) (dstName : Name) (fresh : Option Block) :
    DirM (Nat × Nat) := do
  let existed ← findDirent dstParentIno dstName
  if existed then do
    let dst ← deref dstParentIno dstName.bytes
    let inode ← getInode dst.ino
    assert (inode.nlinks ≠ 0)
    pure (dst.off, dst.ino)
  else do
    let off ← allocDirent dstParentIno dstName fresh
    let src ← deref srcParentIno srcName.bytes
    setDirentType dstParentIno off src.fileType
    pure (off, inoInvalid)

/-- The link counts of the parents when `fuse_rename` moves a directory. -/
def renameNlinks (srcParentIno dstParentIno : Nat) (dir existed : Bool) : DirM Unit :=
  if dir then
    if srcParentIno ≠ dstParentIno then do
      decNlinks srcParentIno
      if existed then pure () else incNlinks dstParentIno
    else if existed then decNlinks dstParentIno else pure ()
  else pure ()

/-- What `fuse_rename` does with the inode whose entry it took. -/
def renameUnlink (dstParentIno : Nat) (dstName : Name) (unlinkedIno : Nat) : DirM Unit :=
  if unlinkedIno ≠ inoInvalid then do
    doUnlinkInode unlinkedIno
    dcacheRemDirent dstParentIno dstName.bytes
  else pure ()

/-- `fuse_rename` from the two entries on. -/
def renameEntries (srcParentIno : Nat) (srcName : Name) (dstParentIno : Nat) (dstName : Name) (dstOff unlinkedIno : Nat) :
    DirM Unit := do
  let src ← deref srcParentIno srcName.bytes
  setDirentIno dstParentIno dstOff src.ino
  setDirentIno srcParentIno src.off inoInvalid
  let old ← getDirent srcParentIno src.off
  assert (old.ino = inoInvalid)
  let new ← getDirent dstParentIno dstOff
  assert (new.ino = src.ino)
  renameNlinks srcParentIno dstParentIno (src.fileType = typeDir) (unlinkedIno ≠ inoInvalid)
  renameUnlink dstParentIno dstName unlinkedIno
  let src ← deref srcParentIno srcName.bytes
  dcacheAddFree srcParentIno src.off src.recLen
  dcacheRemDirent srcParentIno srcName.bytes
  cacheDirent dstParentIno dstOff dstName

/-- `fuse_rename`. -/
def fuseRename (srcParentIno : Nat) (srcName : Name) (dstParentIno : Nat) (dstName : Name) (fresh : Option Block) :
    DirM Unit := do
  let found ← findDirent srcParentIno srcName
  if found then do
    let src ← deref srcParentIno srcName.bytes
    let inode ← getInode src.ino
    assert (inode.nlinks ≠ 0)
    let (dstOff, unlinkedIno) ← renameTarget srcParentIno srcName dstParentIno dstName fresh
    renameEntries srcParentIno srcName dstParentIno dstName dstOff unlinkedIno
  else throw .enoent

/-! ### Runs -/

/-- The file system that `mkbpfs` makes: 64 inodes, of which only that of the root is written. `b` is what was in the
block of the root directory before, `others` what is in the other inodes. -/
def mkbpfs (b : Block) (others : Nat → Inode) : Volume where
  ninodes := 64
  inodes := Function.update others inoRoot ⟨0x41FD, 2, [b.setRecLen 0 0]⟩
  used := {inoRoot}
  dcache := []

/-- The requests, each with what the allocators give it, and the loss of a directory from the cache. -/
inductive Op where
  | lookup (parentIno : Nat) (name : Name)
  | mknod (parentIno : Nat) (name : Name) (mode ino : Nat) (fresh data : Option Block)
  | mkdir (parentIno : Nat) (name : Name) (mode ino : Nat) (fresh data : Option Block)
  | symlink (parentIno : Nat) (name : Name) (ino : Nat) (fresh data : Option Block)
  | create (parentIno : Nat) (name : Name) (mode ino : Nat) (fresh data : Option Block)
  | link (ino parentIno : Nat) (name : Name) (fresh : Option Block)
  | unlink (parentIno : Nat) (name : Name)
  | rmdir (parentIno : Nat) (name : Name)
  | rename (srcParentIno : Nat) (srcName : Name) (dstParentIno : Nat) (dstName : Name) (fresh : Option Block)
  | drop (ino : Nat)

def perform : Op → DirM Unit
  | .lookup parentIno name => do
      let _ ← findDirent parentIno name
      pure ()
  | .mknod parentIno name mode ino fresh data => fuseMknod parentIno name mode ino fresh data
  | .mkdir parentIno name mode ino fresh data => fuseMkdir parentIno name mode ino fresh data
  | .symlink parentIno name ino fresh data => fuseSymlink parentIno name ino fresh data
  | .create parentIno name mode ino fresh data => fuseCreate parentIno name mode ino fresh data
  | .link ino parentIno name fresh => fuseLink ino parentIno name fresh
  | .unlink parentIno name => fuseUnlink parentIno name
  | .rmdir parentIno name => fuseRmdir parentIno name
  | .rename srcParentIno srcName dstParentIno dstName fresh => fuseRename srcParentIno srcName dstParentIno dstName fresh
  | .drop ino => modify fun v => { v with dcache := Dcache.erase v.dcache ino }

/-- The directories in use. -/
def Volume.dirs (v : Volume) : Set Nat := { d | d ∈ v.used ∧ (v.inodes d).isDir = true }

/-- The directories a request names are directories in use, and so is the inode it links. -/
def Op.Valid (v : Volume) : Op → Prop
  | .lookup parentIno _ | .mknod parentIno .. | .mkdir parentIno .. | .symlink parentIno .. | .create parentIno ..
  | .unlink parentIno _ | .rmdir parentIno _ => parentIno ∈ v.dirs
  | .link ino parentIno .. => ino ∈ v.used ∧ parentIno ∈ v.dirs
  | .rename srcParentIno _ dstParentIno .. => srcParentIno ∈ v.dirs ∧ dstParentIno ∈ v.dirs
  | .drop _ => True

/-- The volume is reached from a new file system by successful requests, each valid and as `P` says. -/
inductive Reaches (P : Volume → Op → Prop) : Volume → Prop where
  | start (b : Block) (others : Nat → Inode) : Reaches P (mkbpfs b others)
  | step {v w : Volume} {op : Op} (before : Reaches P v) (valid : op.Valid v) (allowed : P v op)
      (run : perform op v = .ok ⟨⟩ w) : Reaches P w

end Bpfs.Dir
