import Bpfs.Disk
import Bpfs.Lib.Wp
import Bpfs.Lib.LinkedList

/-! The list of recently used blocks that eviction takes its victims from: a count, a
doubly linked list and a hash map from block numbers to nodes, all kept by hand. -/

namespace Bpfs
open Lib

/-- How a call can go wrong: it follows the null pointer or a pointer to a freed node, or
its own assertion fails. -/
inductive LruErr where
  | nullPointer
  | dangling
  | assertion
  deriving DecidableEq, Repr

structure Lru where
  heap : Heap Nat
  numElements : Nat
  head : Nat
  tail : Nat
  hashMap : Nat → Option Nat

abbrev LruM := EStateM LruErr Lru

namespace Lru

def loadNode (a : Nat) : LruM (Node Nat) := do
  let s ← get
  if a = 0 then throw .nullPointer
  else match s.heap a with
    | none => throw .dangling
    | some node => pure node

def storeNext (a v : Nat) : LruM Unit := do
  let _ ← loadNode a
  modify fun s => { s with heap := s.heap.setNext a v }

def storePrev (a v : Nat) : LruM Unit := do
  let _ ← loadNode a
  modify fun s => { s with heap := s.heap.setPrev a v }

def setHead (a : Nat) : LruM Unit := modify fun s => { s with head := a }

def setTail (a : Nat) : LruM Unit := modify fun s => { s with tail := a }

/-- `malloc` of a node at an address that is not in use. -/
def mallocNode (a blockno : Nat) : LruM Unit :=
  modify fun s => { s with heap := s.heap.set a (some ⟨blockno, 0, 0⟩) }

/-- `free`. -/
def freeNode (a : Nat) : LruM Unit := do
  let _ ← loadNode a
  modify fun s => { s with heap := s.heap.set a none }

/-- `lru_hash_map_insert` keeps an entry that is already there. -/
def hashMapInsert (blockno a : Nat) : LruM Unit :=
  modify fun s => { s with hashMap := fun b => if b = blockno then some ((s.hashMap b).getD a) else s.hashMap b }

/-- `lru_hash_map_find`, which answers with the null pointer for a missing key. -/
def hashMapFind (s : Lru) (blockno : Nat) : Nat := (s.hashMap blockno).getD 0

/-- `lru_hash_map_erase`. -/
def hashMapErase (blockno : Nat) : LruM Unit :=
  modify fun s => { s with hashMap := fun b => if b = blockno then none else s.hashMap b }

def countUp : LruM Unit := modify fun s => { s with numElements := u64 (s.numElements + 1) }

def countDown : LruM Unit := modify fun s => { s with numElements := usub s.numElements 1 }

/-- Add `node` as the new head of a list that is not empty. -/
def pushFront (node : Nat) : LruM Unit := do
  let s ← get
  storeNext node s.head
  storePrev s.head node
  setHead node
  storePrev node 0

/-- The part of `lru_push` that takes a node that is not the head out of its place. -/
def takeOut (nodeP : Nat) : LruM Unit := do
  let n ← loadNode nodeP
  if n.prev = 0 then throw .assertion
  storeNext n.prev n.next
  let n ← loadNode nodeP
  if n.next ≠ 0 then storePrev n.next n.prev else setTail n.prev

/-- `lru_push`. -/
def lruPush (node : Nat) : LruM Unit := do
  storePrev node 0
  storeNext node 0
  let s ← get
  let n ← loadNode node
  if s.numElements = 0 then
    setHead node
    setTail node
    hashMapInsert n.value node
    countUp
  else
    let nodeP := s.hashMapFind n.value
    if nodeP ≠ 0 then
      if nodeP ≠ s.head then
        takeOut nodeP
        pushFront nodeP
    else
      pushFront node
      hashMapInsert n.value node
      countUp

/-- `lru_pop`. -/
def lruPop : LruM Nat := do
  let s ← get
  if s.numElements = 0 then pure 0
  else if s.numElements = 1 then
    setTail 0
    setHead 0
    modify fun s => { s with numElements := 0 }
    pure s.tail
  else
    let n ← loadNode s.tail
    setTail n.prev
    storeNext n.prev 0
    let n ← loadNode s.tail
    hashMapErase n.value
    countDown
    pure s.tail

/-- One round of the loop of `anti_cache_manager_delete_lru_entries`. -/
def deleteLruEntry (blockNum : Nat) : LruM Unit := do
  let s ← get
  let node := s.hashMapFind blockNum
  if node ≠ 0 then
    let n ← loadNode node
    if n.prev = 0 ∧ n.next = 0 then
      setHead 0
      setTail 0
    else if n.prev = 0 then
      storePrev n.next 0
      setHead n.next
    else if n.next = 0 then
      storeNext n.prev 0
      setTail n.prev
    else
      storeNext n.prev n.next
      let n ← loadNode node
      storePrev n.next n.prev
    freeNode node
    hashMapErase blockNum

/-- `anti_cache_manager_delete_lru_entries`. -/
def deleteLruEntries : List Nat → LruM Unit
  | [] => pure ()
  | blockNum :: rest => do
      deleteLruEntry blockNum
      deleteLruEntries rest

/-- `lru_init`: `malloc` leaves `garbage` in the count, which is never set. -/
def lruInit (garbage : Nat) : Lru := ⟨fun _ => none, garbage, 0, 0, fun _ => none⟩

/-- A call from outside. A pushed node comes fresh from `malloc`, at an address of its
choice; a popped node is freed by the caller once its block number has been read. -/
inductive Op where
  | push (node blockno : Nat)
  | pop
  | delete (blockNums : List Nat)
  deriving DecidableEq, Repr

def Op.step : Op → LruM Unit
  | .push node blockno => do
      mallocNode node blockno
      lruPush node
  | .pop => do
      let node ← lruPop
      if node ≠ 0 then freeNode node
  | .delete blockNums => deleteLruEntries blockNums

def run : List Op → LruM Unit
  | [] => pure ()
  | op :: ops => do
      op.step
      run ops

/-- `malloc` gives out addresses that are not in use. -/
def Op.Fresh (s : Lru) : Op → Prop
  | .push node _ => node ≠ 0 ∧ node < 2 ^ 64 ∧ s.heap node = none
  | _ => True

end Lru

end Bpfs
