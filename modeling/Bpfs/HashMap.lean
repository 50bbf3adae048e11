import Bpfs.Disk
import Bpfs.Lib.Wp
import Bpfs.Lib.LinkedList

/-! The chaining hash map: a table of buckets, each the head of a doubly linked chain of
elements. Elements come from a pool that all maps share. -/

namespace Bpfs
open Lib

/-- How a call can go wrong: it follows the null pointer or a pointer to an element that is
back in the pool, its own assertion fails, or a chain has no end. -/
inductive HashErr where
  | nullPointer
  | dangling
  | assertion
  | endless
  deriving DecidableEq, Repr

structure HashMapElt where
  key : Nat
  val : Nat
  deriving DecidableEq, Repr

/-- The elements in use and the pool: its free list and the first address behind its pages. -/
structure ChainStore where
  heap : Heap HashMapElt
  freeList : List Nat
  brk : Nat

abbrev ChainM := EStateM HashErr ChainStore

inductive KeyType where
  | ptr
  | str
  deriving DecidableEq, Repr

structure HashMap where
  size : Nat
  autoResize : Bool
  tbl : Nat → Nat
  buckets : Nat
  type : KeyType
  version : Nat
  looseVersion : Nat

namespace HashMap

/-! ### Hashing -/

def primeList : List Nat :=
  [53, 97, 193, 389, 769, 1543, 3079, 6151, 12289, 24593, 49157, 98317, 196613, 393241, 786433, 1572869, 3145739,
    6291469, 12582917, 25165843, 50331653, 100663319, 201326611, 402653189, 805306457, 1610612741, 3221225473, 4294967291]

/-- `next_size`: the first prime of the list that is not less, or the last one. -/
def nextSize (n : Nat) : Nat := (primeList.find? fun p => ¬p < n).getD 4294967291

/-- A `char`, which is signed, as it is added to an `unsigned long`. -/
def signedChar (c : UInt8) : Nat := if c.toNat < 128 then c.toNat else 2 ^ 64 - 256 + c.toNat

/-- The loop of `hash_str`. -/
def hashLoop (s : List UInt8) : Nat := s.foldl (fun h c => u64 (5 * h + signedChar c)) 0

variable (strings : Nat → List UInt8)

/-- `hash`. The string at each address, up to its null, is in `strings`. -/
def hash (hm : HashMap) (k : Nat) : Nat :=
  match hm.type with
  | .ptr => k % hm.buckets
  | .str => hashLoop (strings k) % hm.buckets

/-- Whether `chain_search_key` takes a key for the one it looks for: by address or with `strcmp`. -/
def sameKey (type : KeyType) (key k : Nat) : Bool :=
  match type with
  | .ptr => key = k
  | .str => strings key = strings k

/-! ### Elements -/

def loadElt (a : Nat) : ChainM (Node HashMapElt) := do
  let s ← get
  if a = 0 then throw .nullPointer
  else match s.heap a with
    | none => throw .dangling
    | some node => pure node

def storeNext (a v : Nat) : ChainM Unit := do
  let _ ← loadElt a
  modify fun s => { s with heap := s.heap.setNext a v }

def storePrev (a v : Nat) : ChainM Unit := do
  let _ ← loadElt a
  modify fun s => { s with heap := s.heap.setPrev a v }

/-- Store the key and the value of an element. -/
def storeElt (a : Nat) (elt : HashMapElt) : ChainM Unit := do
  let node ← loadElt a
  modify fun s => { s with heap := s.heap.set a (some { node with value := elt }) }

/-- Elements of a page of the pool: a page has 4096 bytes, a pointer to the next one and elements of 32 bytes. -/
def poolSize : Nat := (4096 - 8) / 32

/-- `chain_elt_alloc`, when there is memory. A new page puts its last element first in the free list. -/
def chainEltAlloc : ChainM Nat := do
  let s ← get
  match s.freeList with
  | p :: rest =>
      set { s with freeList := rest }
      pure p
  | [] =>
      set { s with
        freeList := (List.range (poolSize - 1)).reverse.map (s.brk + ·)
        brk := s.brk + poolSize }
      pure (s.brk + (poolSize - 1))

/-- `chain_elt_create`. -/
def chainEltCreate (k v : Nat) : ChainM Nat := do
  let elt ← chainEltAlloc
  modify fun s => { s with heap := s.heap.set elt (some ⟨⟨k, v⟩, 0, 0⟩) }
  pure elt

/-- `chain_elt_destroy`. -/
def chainEltDestroy (elt : Nat) : ChainM Unit := do
  let _ ← loadElt elt
  modify fun s => { s with heap := s.heap.set elt none, freeList := elt :: s.freeList }

/-- The loop of `chain_search_key`, for a chain of at most `n` elements. -/
def chainSearch (type : KeyType) (k : Nat) : Nat → Nat → ChainM Nat
  | 0, head => if head = 0 then pure 0 else throw .endless
  | n + 1, head =>
      if head = 0 then pure 0
      else do
        let node ← loadElt head
        if sameKey strings type node.value.key k then pure head
        else chainSearch type k n node.next

/-- `chain_search_key`. No chain has more elements than there are addresses. -/
def chainSearchKey (hm : HashMap) (head k : Nat) : ChainM Nat := do
  let s ← get
  chainSearch strings hm.type k s.brk head

/-! ### General -/

/-- `vector_elt_set` on the table. -/
def eltSet (hm : HashMap) (i a : Nat) : HashMap := { hm with tbl := fun j => if j = i then a else hm.tbl j }

/-- `hash_map_create_size_type` for at least one bucket. -/
def create (n : Nat) (autoResize : Bool) (type : KeyType) : HashMap where
  size := 0
  autoResize := autoResize
  tbl := fun _ => 0
  buckets := nextSize n
  type := type
  version := 0
  looseVersion := 0

/-- Count a change other than a removal. -/
def changed (hm : HashMap) : HashMap := { hm with version := hm.version + 1, looseVersion := hm.looseVersion + 1 }

/-- Put an element in front of a bucket's chain. -/
def linkElt (hm : HashMap) (eltNum elt : Nat) : ChainM HashMap := do
  let head := hm.tbl eltNum
  if head ≠ 0 then
    storeNext elt head
    storePrev head elt
  pure (hm.eltSet eltNum elt)

/-- Take an element out of a bucket's chain. -/
def unlinkElt (hm : HashMap) (eltNum elt : Nat) : ChainM HashMap := do
  let n ← loadElt elt
  if n.prev ≠ 0 then storeNext n.prev n.next
  let hm := if n.prev ≠ 0 then hm else hm.eltSet eltNum n.next
  let n ← loadElt elt
  if n.next ≠ 0 then storePrev n.next n.prev
  pure hm

/-- `hash_map_find_internal`: the element with the key, or the null pointer. The functions below that look for a key
do it in the same way. -/
def findInternal (hm : HashMap) (k : Nat) : ChainM Nat := do
  let head := hm.tbl (hm.hash strings k)
  if head = 0 then pure 0 else chainSearchKey strings hm head k

/-- `insert_chain_elt`. -/
def insertChainElt (hm : HashMap) (elt : Nat) : ChainM HashMap := do
  let n ← loadElt elt
  let hm ← hm.linkElt (hm.hash strings n.value.key) elt
  pure { hm with size := hm.size + 1 }.changed

/-- `erase_chain_elt`: the element, or the null pointer. -/
def eraseChainElt (hm : HashMap) (k : Nat) : ChainM (HashMap × Nat) := do
  let kChain ← hm.findInternal strings k
  if kChain = 0 then pure (hm, 0)
  else
    let hm ← hm.unlinkElt (hm.hash strings k) kChain
    storeNext kChain 0
    storePrev kChain 0
    pure ({ hm with size := hm.size - 1, version := hm.version + 1 }, kChain)

/-- `hash_map_erase`: the value, or the null pointer. -/
def hashMapErase (hm : HashMap) (k : Nat) : ChainM (HashMap × Nat) := do
  let (hm, kChain) ← hm.eraseChainElt strings k
  if kChain = 0 then pure (hm, 0)
  else
    let n ← loadElt kChain
    chainEltDestroy kChain
    pure (hm, n.value.val)

/-- The inner loop of `hash_map_clear`, for a chain of at most `n` elements. -/
def destroyChain : Nat → Nat → ChainM Unit
  | 0, head => if head = 0 then pure () else throw .endless
  | n + 1, head =>
      if head = 0 then pure ()
      else do
        let node ← loadElt head
        chainEltDestroy head
        destroyChain n node.next

/-- The outer loop of `hash_map_clear`, for `n` buckets from `i` on. -/
def clearBuckets : Nat → Nat → HashMap → ChainM HashMap
  | 0, _, hm => pure hm
  | n + 1, i, hm => do
      let s ← get
      destroyChain s.brk (hm.tbl i)
      clearBuckets n (i + 1) (hm.eltSet i 0)

/-- `hash_map_clear`. -/
def hashMapClear (hm : HashMap) : ChainM HashMap := do
  let hm ← clearBuckets hm.buckets 0 hm
  pure { hm with size := 0 }.changed

/-- `hash_map_find_val`. -/
def hashMapFindVal (hm : HashMap) (k : Nat) : ChainM Nat := do
  let kChain ← hm.findInternal strings k
  if kChain = 0 then pure 0
  else
    let n ← loadElt kChain
    pure n.value.val

/-! ### Resizing -/

/-- The inner loop of `hash_map_resize`, for a chain of at most `n` elements: move them from the old map to the
new one. -/
def moveChain : Nat → Nat → HashMap → HashMap → ChainM (HashMap × HashMap)
  | 0, elt, hm, newHm => if elt = 0 then pure (hm, newHm) else throw .endless
  | n + 1, elt, hm, newHm =>
      if elt = 0 then pure (hm, newHm)
      else do
        let node ← loadElt elt
        let (hm, found) ← hm.eraseChainElt strings node.value.key
        if found = 0 then throw .assertion
        let newHm ← newHm.insertChainElt strings elt
        moveChain n node.next hm newHm

/-- The outer loop of `hash_map_resize`, for `n` buckets from `i` on. -/
def moveBuckets : Nat → Nat → HashMap → HashMap → ChainM (HashMap × HashMap)
  | 0, _, hm, newHm => pure (hm, newHm)
  | n + 1, i, hm, newHm => do
      let s ← get
      let (hm, newHm) ← moveChain strings s.brk (hm.tbl i) hm newHm
      moveBuckets n (i + 1) hm newHm

/-- `hash_map_resize`: 0, or 1 if the number of buckets stays. -/
def hashMapResize (hm : HashMap) (n : Nat) : ChainM (HashMap × Nat) := do
  let n := nextSize n
  if n = hm.buckets then pure (hm, 1)
  else
    let (hm, newHm) ← moveBuckets strings hm.buckets 0 hm (create n hm.autoResize hm.type)
    let hm ← hm.hashMapClear
    pure ({ hm with size := newHm.size, tbl := newHm.tbl, buckets := newHm.buckets }.changed, 0)

/-- `hash_map_insert`: 0 for a new key, 1 for one that was there. -/
def hashMapInsert (hm : HashMap) (k v : Nat) : ChainM (HashMap × Nat) := do
  let existing ← hm.findInternal strings k
  if existing ≠ 0 then
    let n ← loadElt existing
    storeElt existing ⟨n.value.key, v⟩
    pure (hm.changed, 1)
  else
    let elt ← chainEltCreate k v
    let hm ← hm.linkElt (hm.hash strings k) elt
    let hm := { hm with size := hm.size + 1 }.changed
    if hm.autoResize ∧ hm.buckets < nextSize hm.size then
      let (hm, _) ← hm.hashMapResize strings hm.size
      pure (hm, 0)
    else pure (hm, 0)

def eexist : Int := 17
def enoent : Int := 2

/-- `hash_map_change_key`. -/
def hashMapChangeKey (hm : HashMap) (oldk newk : Nat) : ChainM (HashMap × Int) := do
  let used ← hm.findInternal strings newk
  if used ≠ 0 then pure (hm, -eexist)
  else
    let elt ← hm.findInternal strings oldk
    if elt = 0 then pure (hm, -enoent)
    else
      let hm ← hm.unlinkElt (hm.hash strings oldk) elt
      let n ← loadElt elt
      storeElt elt ⟨newk, n.value.val⟩
      storePrev elt 0
      storeNext elt 0
      let hm ← hm.linkElt (hm.hash strings newk) elt
      pure (hm.changed, 0)

end HashMap

end Bpfs
