import Bpfs.BlockTree
import Bpfs.FileOps

/-! A leaf on disk when NVM is full. `crawl_indir` fetches such a leaf through
`get_block_from_disk`, which does not look at whether `alloc_block` found a block: the copy goes
to the memory below `bpram` and the indirect block gets a hole in place of the leaf. -/

namespace Bpfs
open Lib

variable {s : Fs}

/-- Entry `k` of the indirect block `b` is the number of a disk block that reads as `buf`. -/
structure DiskLeaf (s : Fs) (b k : Nat) (buf : Nat → UInt8) : Prop where
  ok : s.Ok
  parent : Allocated s b
  small : k < 512
  far : (addrAt s.bpram b k).testBit 63 = true
  first : ∀ j, j < k → addrAt s.bpram b j ≠ addrAt s.bpram b k
  loads : ∃ dm, s.disk.load (addrAt s.bpram b k ^^^ diskFlag) = some (buf, dm)

/-- The leaf gets a block: every store stays in the blocks of NVM, the entry has the number of
a block with the leaf's contents, and no other block in use changes. -/
structure Installed (s : Fs) (b k : Nat) (buf : Nat → UInt8) (t : Fs) : Prop where
  inside : ∃ ws, t.writes = s.writes ++ ws ∧ ∀ w ∈ ws, 1 ≤ w.blk ∧ w.blk ≤ s.blockAlloc.ntotal
  contents : ∀ o, o < blockSize → t.bpram (addrAt t.bpram b k) o = buf o
  others : ∀ x, Allocated s x → x ≠ b → t.bpram x = s.bpram x

/-- The crawl's fetch of the leaf installs it or stops with nothing written. -/
def FetchedOrReported (c : IndirCrawl) (s : Fs) (b k : Nat) (buf : Nat → UInt8) : Prop :=
  wp (indirChild c true b k) (fun nb t => nb = addrAt t.bpram b k ∧ Installed s b k buf t)
    (fun _ t => t.bpram = s.bpram ∧ t.writes = s.writes) s

theorem allocBlock_free (ok : s.Ok) (free : ∃ x, Unused s x) :
    wp allocBlock (fun b t => Fresh s b ∅ t ∧ t.bpram = s.bpram ∧ t.writes = s.writes) (fun _ _ => False) s := by
  have nonzero : wp allocBlock (fun b _ => b ≠ 0) (fun _ _ => True) s := by
    simp only [allocBlock, wp_bind, wp_get, wp_ite, wp_modify, wp_check, wp_pure]
    rcases Bitmap.alloc_cases ok.wf.aligned with ⟨no, small, clear, result⟩ | ⟨full, -⟩
    · simp only [result]
      exact ⟨fun none => by omega, fun _ => ⟨fun _ => Nat.succ_ne_zero no, fun _ => trivial⟩⟩
    · obtain ⟨x, low, high, unset⟩ := free
      exact absurd ⟨by omega, high, full (x - 1) (by omega)⟩ unset
  apply wp_mono (wp_and (allocBlock_spec ok) nonzero)
  · rintro b t ⟨fresh | ⟨zero, _⟩, positive⟩
    · exact fresh
    · exact absurd zero positive
  · rintro _ _ ⟨impossible, _⟩
    exact impossible

theorem allocBlock_full (ok : s.Ok) (full : ¬∃ x, Unused s x) :
    wp allocBlock (fun b t => b = 0 ∧ NoSpace s t) (fun _ _ => False) s := by
  apply wp_mono (allocBlock_spec ok)
  · rintro b t (⟨fresh, _⟩ | none)
    · exact absurd ⟨b, fresh.unused⟩ full
    · exact none
  · exact fun _ _ impossible => impossible

section Fetch

variable {c : IndirCrawl} {b k : Nat} {buf : Nat → UInt8} (leaf : DiskLeaf s b k buf)

include leaf

theorem DiskLeaf.parent_lt : b < 2 ^ 61 := leaf.parent.lt leaf.ok

/-- The fetch up to the copy: the block is read, and one is asked for. -/
theorem DiskLeaf.wp_fetch (looks : c.childValid k ≠ 0) (present : c.inHole = false) {Q : Nat → Fs → Prop}
    {E : Err → Fs → Prop}
    (install : ∀ dm, wp (allocBlock >>= fun nb =>
        installBlock .getBlockFromDisk (addrAt s.bpram b k) nb buf (getBlock b)) Q E { s with disk := dm }) :
    wp (indirChild c true b k) Q E s := by
  obtain ⟨dm, loads⟩ := leaf.loads
  have looked : ¬(c.childValid k = 0 ∨ c.inHole = true) := by simp [looks, present]
  simp only [indirChild, if_neg looked, wp_bind, wp_loadAddr leaf.small, leaf.far, and_self, if_true,
    getBlockFromDisk, fetchBlock, readDisk, wp_get, loads, wp_modify, wp_pure]
  have next := install dm
  rwa [wp_bind] at next

/-- The copy and the new entry, once there is a number for the block. -/
theorem DiskLeaf.wp_install {nb : Nat} (other : nb ≠ b) {t : Fs} (memory : t.bpram = s.bpram) {Q : Nat → Fs → Prop}
    {E : Err → Fs → Prop} (done : Q nb ((t.store ⟨false, nb, 0, blockSize, buf⟩).store (slotWrite b k nb))) :
    wp (installBlock .getBlockFromDisk (addrAt s.bpram b k) nb buf (getBlock b)) Q E t := by
  have high := leaf.parent_lt
  have low := leaf.parent.1
  have entries : ∀ j, addrAt (t.store ⟨false, nb, 0, blockSize, buf⟩).bpram b j = addrAt s.bpram b j := by
    intro j
    have same : (t.store ⟨false, nb, 0, blockSize, buf⟩).bpram b = t.bpram b := apply_other (Ne.symm other)
    simp only [addrAt, wordAt, same, memory]
  have found : findAddr (t.store ⟨false, nb, 0, blockSize, buf⟩).bpram b (addrAt s.bpram b k) blocknosPerIndir 0 =
      some k :=
    findAddr_some (Nat.zero_le _) (by simpa [blocknosPerIndir] using leaf.small) (entries k)
      (fun j before => by rw [entries]; exact leaf.first j before)
  simp only [installBlock, memcpy, wp_bind, wp_storeNvm, wp_getBlock (show b ≠ 0 by omega) (show b < 2 ^ 63 by omega),
    wp_get, found]
  exact done

theorem DiskLeaf.installed (looks : c.childValid k ≠ 0) (present : c.inHole = false) (free : ∃ x, Unused s x) :
    FetchedOrReported c s b k buf := by
  apply leaf.wp_fetch looks present
  intro dm
  rw [wp_bind]
  apply wp_mono (allocBlock_free (s := { s with disk := dm }) ⟨leaf.ok.wf, leaf.ok.small, leaf.ok.reserved⟩ free) _ (fun _ _ impossible => impossible.elim)
  rintro nb t ⟨fresh, memory, log⟩
  have low := fresh.unused.1
  have high : nb ≤ s.blockAlloc.ntotal := fresh.unused.2.1
  have small := fresh.unused.lt leaf.ok
  have other : nb ≠ b := by
    rintro rfl
    exact fresh.unused.2.2 leaf.parent
  apply leaf.wp_install other memory
  have entry : addrAt ((t.store ⟨false, nb, 0, blockSize, buf⟩).store (slotWrite b k nb)).bpram b k = nb :=
    addrAt_slotWrite (by omega)
  refine ⟨entry.symm, ⟨[⟨false, nb, 0, blockSize, buf⟩, slotWrite b k nb], ?_, ?_⟩, ?_, ?_⟩
  · change t.writes ++ _ ++ _ = _
    rw [log, List.append_assoc]
    rfl
  · intro w member
    simp only [List.mem_cons, List.not_mem_nil, or_false] at member
    rcases member with rfl | rfl
    · exact ⟨by change 1 ≤ nb; omega, high⟩
    · exact ⟨leaf.parent.1, leaf.parent.2.1⟩
  · intro o inside
    rw [entry, store_bpram, apply_other (show nb ≠ (slotWrite b k nb).blk from other), store_bpram,
      apply_covered ⟨rfl, Nat.zero_le _, by simpa using inside⟩]
    rfl
  · intro x used away
    have apart : x ≠ nb := by
      rintro rfl
      exact fresh.unused.2.2 used
    rw [store_bpram, apply_other (show x ≠ (slotWrite b k nb).blk from away), store_bpram,
      apply_other (show x ≠ nb from apart), memory]

/-- With no free block, the bytes of the leaf go to the block before the first one. -/
theorem DiskLeaf.strays (looks : c.childValid k ≠ 0) (present : c.inHole = false) (full : ¬∃ x, Unused s x) :
    wp (indirChild c true b k)
      (fun nb t => nb = 0 ∧ addrAt t.bpram b k = 0 ∧
        t.writes = s.writes ++ [⟨false, 0, 0, blockSize, buf⟩, slotWrite b k 0])
      (fun _ _ => False) s := by
  apply leaf.wp_fetch looks present
  intro dm
  rw [wp_bind]
  apply wp_mono (allocBlock_full (s := { s with disk := dm }) ⟨leaf.ok.wf, leaf.ok.small, leaf.ok.reserved⟩ full) _ (fun _ _ impossible => impossible)
  rintro nb t ⟨rfl, none⟩
  apply leaf.wp_install (by have := leaf.parent.1; omega) none.bpram
  refine ⟨rfl, addrAt_slotWrite (by decide), ?_⟩
  change t.writes ++ _ ++ _ = _
  rw [none.writes, List.append_assoc]
  rfl

end Fetch

/-- 64 blocks, all in use; the first entry of the indirect block 3 is on disk. -/
def packed : Fs where
  bpram b o := if b = blocknoSuper ∧ o = 24 then 64 else if b = 3 ∧ o = 7 then 128 else 0
  blockAlloc := ⟨fun _ => 255, 64, 0, [], [], 0⟩
  inodeAlloc := ⟨fun _ => 0, 0, 0, [], [], 0⟩
  disk := ⟨fun _ => 9, blockSize, 8, 1, blockSize, [], fun _ => none, fun _ => none, 0, fun _ => 0, 0⟩
  indirMapping _ := 0
  currentIndirPointer := 0
  treeNblocksNblocks := 0
  iov := []
  inode := (.zeroBlock, 0)
  writes := []
  allocFailures := 0
  cacheCalls := []
  mappingAccesses := []

/-- The crawl of a read of 10 bytes from the first leaf. -/
def firstLeaf : IndirCrawl := ⟨3, 0, 0, 10, 10, .none, 1, blockSize, false⟩

theorem packed_leaf : ∃ buf, DiskLeaf packed 3 0 buf ∧ buf 0 = 9 := by
  refine ⟨_, ⟨⟨⟨rfl, ?_, List.nodup_nil, ?_, List.nodup_nil⟩, by decide, by decide⟩, ⟨by decide, by decide, by decide⟩,
    by decide, by decide +kernel, ?_, _, rfl⟩, by decide +kernel⟩
  · exact fun _ member => absurd member List.not_mem_nil
  · exact fun _ member => absurd member List.not_mem_nil
  · exact fun j below => absurd below (Nat.not_lt_zero j)

/-- What a crawl that returns says, the blocks it stored to and what the first entry of block 3 is then. -/
def traceOf : EStateM.Result Err Fs (Nat × Nat) → Option (Nat × List Nat × Nat)
  | .ok r t => some (r.1, t.writes.map (·.blk), addrAt t.bpram 3 0)
  | .error _ _ => none

end Bpfs
