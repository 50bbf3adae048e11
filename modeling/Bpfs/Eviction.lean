import Bpfs.AntiCache
import Bpfs.DiskReads
import Bpfs.FileLeaves

/-! The two ways to evict blocks, one by one and in bulk, and what they leave of the files. -/

namespace Bpfs
open Lib

namespace DiskManager

variable {dm : DiskManager} {uses : Uses}

/-- How many disk blocks `findFreeBlock` can still hand out. -/
def spare (dm : DiskManager) : Nat := usub dm.totalBlockCount 1 - dm.currentDiskBlockNumber + dm.freeList.length

theorem write_full {buf : Nat → UInt8} (full : dm.spare = 0) : dm.writeBlock buf = some (minusOne, dm) := by
  unfold spare at full
  have list : dm.freeList = [] := List.eq_nil_of_length_eq_zero (by omega)
  have found : dm.findFreeBlock = (minusOne, dm) := by
    unfold findFreeBlock getBlockFromFreeList
    rw [if_pos (by omega), list]
    exact if_pos rfl
  unfold writeBlock
  rw [found]
  exact if_pos rfl

/-- With room left, a write goes to a block that was not in use. -/
theorem InUse.write_room (inUse : InUse dm uses) (limit : usub dm.totalBlockCount 1 ≤ 2 ^ 31) (room : dm.spare ≠ 0)
    (buf : Nat → UInt8) : ∃ no dm', dm.writeBlock buf = some (no, dm') ∧ no < 2 ^ 31 ∧ uses no = none ∧
      dm'.spare + 1 = dm.spare ∧ dm'.totalBlockCount = dm.totalBlockCount ∧ InUse dm' (uses.set no (some buf)) := by
  have cursor := inUse.cursor
  unfold spare at room
  suffices found : ∃ no dm1, dm.findFreeBlock = (no, dm1) ∧ no < 2 ^ 31 ∧ uses no = none ∧ dm1.spare + 1 = dm.spare ∧
      dm1.totalBlockCount = dm.totalBlockCount ∧ dm1.diskManagerBlockSize = blockSize by
    obtain ⟨no, dm1, found, small, unused, fewer, total, size⟩ := found
    have written : dm.writeBlock buf = some (no, dm1.pwrite (no * blockSize) blockSize buf) := by
      unfold writeBlock
      rw [found]
      dsimp only
      rw [if_neg (ne_minusOne small), putBlock_eq buf size small, Option.map_some]
    have after := inUse.write written
    rw [if_neg (ne_minusOne small)] at after
    exact ⟨no, _, written, small, unused, fewer, total, after⟩
  unfold findFreeBlock
  by_cases full : usub dm.totalBlockCount 1 ≤ dm.currentDiskBlockNumber
  · rw [if_pos full]
    unfold getBlockFromFreeList
    cases list : dm.freeList with
    | nil =>
      rw [list, List.length_nil] at room
      omega
    | cons b rest =>
      obtain ⟨below, unused⟩ := inUse.free b (by rw [list]; exact List.mem_cons_self ..)
      dsimp only
      rw [if_neg (ne_minusOne (by omega)), throughInt_small (by omega)]
      refine ⟨b, _, rfl, by omega, unused, ?_, rfl, inUse.size⟩
      simp only [spare, list, List.length_cons]
      omega
  · rw [if_neg full, throughInt_small (by omega)]
    refine ⟨_, _, rfl, by omega, ?_, ?_, rfl, inUse.size⟩
    · by_contra taken
      obtain ⟨data, here⟩ := Option.ne_none_iff_exists'.mp taken
      exact Nat.lt_irrefl _ (inUse.used here).1
    · simp only [spare]
      omega

/-- What a bulk write that starts at index `i` of the array leaves there: the numbers of the blocks
it wrote, and past them what was there before. -/
structure BulkWritten (uses : Uses) (numbers : Nat → Nat) (bufs : List (Nat → UInt8)) (i count : Nat)
    (numbers' : Nat → Nat) (dm' : DiskManager) (uses' : Uses) : Prop where
  inUse : InUse dm' uses'
  kept : ∀ {b : Nat} {data : Nat → UInt8}, uses b = some data → uses' b = some data
  before : ∀ k, k < i → numbers' k = numbers k
  wrote : ∀ k buf, k < count → bufs[k]? = some buf → numbers' (i + k) < 2 ^ 31 ∧ uses' (numbers' (i + k)) = some buf
  left : ∀ k, count ≤ k → numbers' (i + k) = numbers (i + k)

theorem InUse.bulk (inUse : InUse dm uses) (limit : usub dm.totalBlockCount 1 ≤ 2 ^ 31) (numbers : Nat → Nat)
    (bufs : List (Nat → UInt8)) (i : Nat) : ∃ numbers' dm' uses', dm.writeBlocksInBulk numbers bufs i = some (numbers', dm') ∧
      BulkWritten uses numbers bufs i (min bufs.length dm.spare) numbers' dm' uses' := by
  induction bufs generalizing dm uses numbers i with
  | nil =>
    refine ⟨numbers, dm, uses, rfl, inUse, fun here => here, fun _ _ => rfl, ?_, fun _ _ => rfl⟩
    intro k buf inside
    rw [List.length_nil, Nat.zero_min] at inside
    omega
  | cons buf rest ih =>
    rw [writeBlocksInBulk]
    by_cases full : dm.spare = 0
    · rw [write_full full, Option.bind_some, if_pos rfl]
      refine ⟨numbers, dm, uses, rfl, inUse, fun here => here, fun _ _ => rfl, ?_, fun _ _ => rfl⟩
      intro k buf inside
      rw [full, Nat.min_zero] at inside
      omega
    obtain ⟨no, dm1, written, small, unused, fewer, total, inUse1⟩ := inUse.write_room limit full buf
    obtain ⟨numbers', dm', uses', more, done⟩ :=
      ih inUse1 (by rw [total]; exact limit) (fun k => if k = i then no else numbers k) (i + 1)
    rw [written, Option.bind_some, if_neg (ne_minusOne small)]
    have count : min (buf :: rest).length dm.spare = min rest.length dm1.spare + 1 := by
      rw [List.length_cons, ← fewer]
      omega
    have here : numbers' i = no := (done.before i (Nat.lt_succ_self _)).trans (if_pos rfl)
    refine ⟨numbers', dm', uses', more, done.inUse, ?_, ?_, ?_, ?_⟩
    · intro b data used
      apply done.kept
      rw [Uses.set, if_neg (fun same => by rw [same, unused] at used; cases used)]
      exact used
    · intro k early
      exact (done.before k (by omega)).trans (if_neg (by omega))
    · intro k data inside member
      cases k with
      | zero =>
        cases member
        rw [Nat.add_zero, here]
        exact ⟨small, done.kept (if_pos rfl)⟩
      | succ k =>
        rw [show i + (k + 1) = i + 1 + k by omega]
        exact done.wrote k data (by omega) member
    · intro k late
      obtain ⟨k, rfl⟩ : ∃ j, k = j + 1 := ⟨k - 1, by omega⟩
      rw [show i + (k + 1) = i + 1 + k by omega]
      exact (done.left k (by omega)).trans (if_neg (by omega))

end DiskManager

/-! ### The swap of a pointer -/

/-- Memory after `b` was looked for in the indirect block `P` and replaced by `v` where it was found. -/
def swapOne (m : Mem) (P b v : Nat) : Mem :=
  match findAddr m P b blocknosPerIndir 0 with
  | some j => m.apply (slotWrite P j v)
  | none => m

/-- Memory after the pointers of all blocks were replaced; `i` is the index of the first. -/
def swapAll (mapping numbers : Nat → Nat) : List Nat → Nat → Mem → Mem
  | [], _, m => m
  | b :: rest, i, m => swapAll mapping numbers rest (i + 1) (swapOne m (mapping b) b (numbers i ||| diskFlag))

theorem swapOne_other {m : Mem} {P b v x : Nat} (other : x ≠ P) : swapOne m P b v x = m x := by
  unfold swapOne
  cases findAddr m P b blocknosPerIndir 0 with
  | none => rfl
  | some j => exact apply_other other

/-- Only an entry that held `b` changes. -/
theorem swapOne_entry {m : Mem} {P b v : Nat} (large : v < 2 ^ 64) (Q j : Nat) :
    addrAt (swapOne m P b v) Q j = addrAt m Q j ∨
      (Q = P ∧ addrAt m Q j = b ∧ addrAt (swapOne m P b v) Q j = v) := by
  unfold swapOne
  cases found : findAddr m P b blocknosPerIndir 0 with
  | none => exact Or.inl rfl
  | some k =>
    by_cases here : Q = P ∧ j = k
    · obtain ⟨rfl, rfl⟩ := here
      exact Or.inr ⟨rfl, (findAddr_found found).2.2.1, addrAt_slotWrite large⟩
    · exact Or.inl (addrAt_slotWrite_other (by omega))

theorem swapOne_found {m : Mem} {P b v j : Nat} (large : v < 2 ^ 64)
    (found : findAddr m P b blocknosPerIndir 0 = some j) : addrAt (swapOne m P b v) P j = v := by
  simp only [swapOne, found]
  exact addrAt_slotWrite large

theorem or_diskFlag_lt {n : Nat} (word : n < 2 ^ 64) : n ||| diskFlag < 2 ^ 64 :=
  Nat.or_lt_two_pow word (by decide)

theorem le_or_diskFlag (n : Nat) : 2 ^ 63 ≤ n ||| diskFlag := Nat.right_le_or

theorem or_diskFlag_sub {n : Nat} (small : n < 2 ^ 63) : (n ||| diskFlag) - 2 ^ 63 = n := by
  have sum : 2 ^ 63 * 1 + n = 2 ^ 63 * 1 ||| n := Nat.two_pow_add_eq_or_of_lt small 1
  rw [Nat.mul_one] at sum
  rw [Nat.or_comm, diskFlag, ← sum, Nat.add_sub_cancel_left]

/-! ### The code -/

/-- Block `b` is in NVM and one of the entries of the block that `indir_mapping` names. -/
structure Resident (s : Fs) (b : Nat) : Prop where
  number : b ≠ 0 ∧ b < 2 ^ 63
  parent : s.indirMapping b ≠ 0 ∧ s.indirMapping b < 2 ^ 63
  points : ∃ j, j < 512 ∧ addrAt s.bpram (s.indirMapping b) j = b

variable {s : Fs} {arr : List Nat}

theorem wp_loadMapping {Q : Nat → Fs → Prop} {E : Err → Fs → Prop} {b : Nat} :
    wp (loadMapping b) Q E s ↔ Q (s.indirMapping b) { s with mappingAccesses := s.mappingAccesses ++ [b] } := Iff.rfl

theorem collectBlocks_spec {E : Err → Fs → Prop} (resident : ∀ b ∈ arr, Resident s b) :
    wp (collectBlocks arr) (fun bufs t => bufs = arr.map s.bpram ∧ ∃ accesses, t = { s with mappingAccesses := accesses })
      E s := by
  induction arr generalizing s with
  | nil => exact ⟨rfl, _, rfl⟩
  | cons b rest ih =>
    obtain ⟨number, parent, -⟩ := resident b (List.mem_cons_self ..)
    simp only [collectBlocks, wp_bind, wp_get]
    rw [wp_loadMapping, wp_check]
    refine ⟨fun _ => ?_, fun missing => absurd parent.1 missing⟩
    rw [wp_getBlock number.1 number.2]
    have later : ∀ c ∈ rest, Resident { s with mappingAccesses := s.mappingAccesses ++ [b] } c := by
      intro c member
      obtain ⟨number, parent, points⟩ := resident c (List.mem_cons_of_mem _ member)
      exact ⟨number, parent, points⟩
    refine wp_mono (ih later) ?_ (fun _ _ fails => fails)
    rintro bufs t ⟨rfl, accesses, rfl⟩
    exact ⟨rfl, accesses, rfl⟩

theorem swapPointers_spec {E : Err → Fs → Prop} {numbers : Nat → Nat} {i : Nat}
    (parents : ∀ b ∈ arr, s.indirMapping b ≠ 0 ∧ s.indirMapping b < 2 ^ 63) :
    wp (swapPointers numbers arr i) (fun _ t => t.bpram = swapAll s.indirMapping numbers arr i s.bpram ∧
      t.disk = s.disk ∧ t.blockAlloc = s.blockAlloc) E s := by
  induction arr generalizing s i with
  | nil => exact ⟨rfl, rfl, rfl⟩
  | cons b rest ih =>
    have first := parents b (List.mem_cons_self ..)
    have others := fun c member => parents c (List.mem_cons_of_mem b member)
    simp only [swapPointers, wp_bind, wp_get]
    rw [wp_loadMapping, wp_getBlock first.1 first.2]
    simp only [swapAll, swapOne]
    let u : Fs := { s with mappingAccesses := s.mappingAccesses ++ [b] }
    cases findAddr s.bpram (s.indirMapping b) b blocknosPerIndir 0 with
    | none => exact ih (s := u) others
    | some j =>
      dsimp only
      rw [wp_bind, wp_storeAddr]
      exact ih (s := u.store (slotWrite (s.indirMapping b) j (numbers i ||| diskFlag))) others

theorem bulkEvict_spec {garbage numbers : Nat → Nat} {dm : DiskManager} {E : Err → Fs → Prop}
    (resident : ∀ b ∈ arr, Resident s b)
    (written : s.disk.writeBlocksInBulk garbage (arr.map s.bpram) 0 = some (numbers, dm)) :
    wp (antiCacheManagerBulkEvictToDisk arr garbage) (fun _ t =>
      t.bpram = swapAll s.indirMapping numbers arr 0 s.bpram ∧ t.disk = dm ∧ t.blockAlloc = s.blockAlloc) E s := by
  unfold antiCacheManagerBulkEvictToDisk
  rw [wp_bind]
  refine wp_mono (collectBlocks_spec resident) ?_ (fun _ _ fails => fails)
  rintro bufs t ⟨rfl, accesses, rfl⟩
  simp only [wp_bind, wp_get, written, wp_modify]
  exact swapPointers_spec (s := { s with mappingAccesses := accesses, disk := dm })
    (fun b member => (resident b member).parent)

/-- A resident block that is allocated, not about to be freed, and whose number is an `int`. -/
structure Evictable (s : Fs) (b : Nat) : Prop extends Resident s b where
  first : 3 ≤ b
  fits : b < 2 ^ 31
  used : Allocated s b
  kept : ¬Freed s b

/-- What the eviction of one block does. -/
structure Evicted (s : Fs) (b no : Nat) (dm : DiskManager) (t : Fs) : Prop where
  bpram : t.bpram = swapOne s.bpram (s.indirMapping b) b (no ||| diskFlag)
  disk : t.disk = dm
  blockAlloc : t.blockAlloc = { s.blockAlloc with frees := (b - 1) :: s.blockAlloc.frees }
  mapping : t.indirMapping = s.indirMapping

theorem moveToDisk_spec {b no : Nat} {dm : DiskManager} (ok : s.Ok) (evictable : Evictable s b)
    (written : s.disk.writeBlock (s.bpram b) = some (no, dm)) (small : no < 2 ^ 31) :
    wp (moveToDisk b) (fun _ t => Evicted s b no dm t) (fun _ _ => False) s := by
  have flag : (no ||| diskFlag) ^^^ diskFlag = no := by
    rw [FileWrite.xor_diskFlag (le_or_diskFlag _) (or_diskFlag_lt (by omega)), or_diskFlag_sub (by omega)]
  obtain ⟨j, inside, here⟩ := evictable.points
  obtain ⟨k, found⟩ := findAddr_exists (n := 512) (Nat.zero_le j) (by omega) here
  unfold moveToDisk
  rw [wp_bind, wp_getBlock evictable.number.1 evictable.number.2, wp_bind, wp_get, written]
  dsimp only
  rw [wp_bind, wp_modify, wp_bind]
  refine (wp_check).mpr ⟨fun _ => ?_, fun wrong => wrong flag⟩
  rw [wp_bind, wp_loadMapping, wp_bind, wp_getBlock evictable.parent.1 evictable.parent.2, wp_bind, wp_get]
  simp only [blocknosPerIndir, found]
  rw [wp_bind, wp_storeAddr]
  let u : Fs := { s with disk := dm, mappingAccesses := s.mappingAccesses ++ [b] }
  refine wp_mono (freeBlock_spec (s := u.store (slotWrite (s.indirMapping b) k (no ||| diskFlag)))
    ⟨ok.wf, ok.small, ok.reserved⟩ evictable.first evictable.used evictable.kept) ?_ (fun _ _ fails => fails)
  rintro _ t rfl
  refine ⟨?_, rfl, rfl, rfl⟩
  simp only [swapOne, blocknosPerIndir, found]
  rfl

theorem evictToDisk_spec {b no : Nat} {dm : DiskManager} (ok : s.Ok) (evictable : Evictable s b)
    (written : s.disk.writeBlock (s.bpram b) = some (no, dm)) (small : no < 2 ^ 31) :
    wp (antiCacheManagerEvictToDisk b) (fun _ t => Evicted s b no dm t) (fun _ _ => False) s := by
  have number : throughInt b = b := DiskManager.throughInt_small evictable.fits
  simp only [antiCacheManagerEvictToDisk, number]
  rw [wp_bind, wp_loadMapping, if_neg (Nat.not_le.mpr evictable.fits), if_pos evictable.parent.1]
  have evictable' : Evictable { s with mappingAccesses := s.mappingAccesses ++ [b] } b :=
    ⟨⟨evictable.number, evictable.parent, evictable.points⟩, evictable.first, evictable.fits, evictable.used,
      evictable.kept⟩
  refine wp_mono (moveToDisk_spec ⟨ok.wf, ok.small, ok.reserved⟩ evictable' written small) ?_ (fun _ _ fails => fails)
  rintro _ t ⟨bpram, disk, blockAlloc, mapping⟩
  exact ⟨bpram, disk, blockAlloc, mapping⟩

theorem Evicted.ok {b no : Nat} {dm : DiskManager} {t : Fs} (evicted : Evicted s b no dm t) (ok : s.Ok)
    (evictable : Evictable s b) : t.Ok := by
  have used := evictable.used
  have staged := Bitmap.staged_free (show b - 1 < s.blockAlloc.ntotal by have := used.1; have := used.2.1; omega)
    used.2.2 (fun member => evictable.kept ⟨used.1, member⟩)
  refine ⟨?_, ?_, ?_⟩
  · rw [evicted.blockAlloc]
    exact staged.wf ok.wf
  · rw [evicted.blockAlloc]
    exact ok.small
  · rw [evicted.blockAlloc]
    exact ok.reserved

/-- Evicting one block does not disturb the search for another one. -/
theorem Evicted.evictable {b c no : Nat} {dm : DiskManager} {t : Fs} (evicted : Evicted s b no dm t)
    (small : no < 2 ^ 31) (evictable : Evictable s c) (other : c ≠ b) : Evictable t c := by
  obtain ⟨j, inside, here⟩ := evictable.points
  have lower := evictable.first
  refine ⟨⟨evictable.number, ?_, j, inside, ?_⟩, evictable.first, evictable.fits, ?_, ?_⟩
  · rw [evicted.mapping]
    exact evictable.parent
  · rw [evicted.mapping, evicted.bpram]
    rcases swapOne_entry (m := s.bpram) (P := s.indirMapping b) (b := b) (or_diskFlag_lt (n := no) (by omega))
      (s.indirMapping c) j with same | ⟨-, held, -⟩
    · rw [same]
      exact here
    · exact absurd (here.symm.trans held) other
  · unfold Allocated
    rw [evicted.blockAlloc]
    exact evictable.used
  · unfold Freed
    rw [evicted.blockAlloc]
    rintro ⟨low, member⟩
    rcases List.mem_cons.mp member with same | old
    · omega
    · exact evictable.kept ⟨low, old⟩

/-- The blocks evicted one by one end where the bulk write and the swaps would have put them, and
their numbers are staged to be freed. -/
theorem evictEach_spec {uses : DiskManager.Uses} {numbers numbers' : Nat → Nat} {dm' : DiskManager} {i : Nat} (ok : s.Ok)
    (disk : DiskManager.InUse s.disk uses) (limit : usub s.disk.totalBlockCount 1 ≤ 2 ^ 31)
    (room : arr.length ≤ s.disk.spare) (distinct : arr.Nodup) (evictable : ∀ b ∈ arr, Evictable s b)
    (leaves : ∀ b ∈ arr, ∀ c ∈ arr, s.indirMapping b ≠ c)
    (written : s.disk.writeBlocksInBulk numbers (arr.map s.bpram) i = some (numbers', dm')) :
    wp (evictEach arr) (fun _ t => t.bpram = swapAll s.indirMapping numbers' arr i s.bpram ∧ t.disk = dm' ∧
      ∀ b, Freed t b ↔ Freed s b ∨ b ∈ arr) (fun _ _ => False) s := by
  induction arr generalizing s uses numbers i with
  | nil =>
    obtain ⟨-, rfl⟩ := Prod.mk.inj (Option.some.inj written)
    exact ⟨rfl, rfl, fun b => by simp⟩
  | cons b rest ih =>
    have first := evictable b (List.mem_cons_self ..)
    have some : s.disk.spare ≠ 0 := by rw [List.length_cons] at room; omega
    obtain ⟨no, dm1, one, small, -, fewer, total, disk1⟩ := disk.write_room limit some (s.bpram b)
    rw [List.map_cons, DiskManager.writeBlocksInBulk, one, Option.bind_some,
      if_neg (DiskManager.ne_minusOne small)] at written
    have here : numbers' i = no := by
      obtain ⟨_, _, _, again, bulk⟩ := disk1.bulk (by rw [total]; exact limit) (fun k => if k = i then no else numbers k)
        (rest.map s.bpram) (i + 1)
      obtain ⟨rfl, rfl⟩ := Prod.mk.inj (Option.some.inj (again.symm.trans written))
      exact (bulk.before i (Nat.lt_succ_self _)).trans (if_pos rfl)
    rw [evictEach, wp_bind]
    refine wp_mono (evictToDisk_spec ok first one small) ?_ (fun _ _ fails => fails)
    intro _ t evicted
    obtain ⟨notIn, nodup⟩ := List.nodup_cons.mp distinct
    have bytes : rest.map t.bpram = rest.map s.bpram := by
      refine List.map_congr_left (fun c member => ?_)
      rw [evicted.bpram]
      exact swapOne_other (leaves b (List.mem_cons_self ..) c (List.mem_cons_of_mem _ member)).symm
    have next := ih (i := i + 1) (evicted.ok ok first)
      (show DiskManager.InUse t.disk (uses.set no (Option.some (s.bpram b))) by rw [evicted.disk]; exact disk1)
      (by rw [evicted.disk, total]; exact limit) (by rw [evicted.disk]; rw [List.length_cons] at room; omega) nodup
      (fun c member => evicted.evictable small (evictable c (List.mem_cons_of_mem _ member))
        (fun same => notIn (same ▸ member)))
      (by
        rw [evicted.mapping]
        exact fun c member d member' => leaves c (List.mem_cons_of_mem _ member) d (List.mem_cons_of_mem _ member'))
      (by rw [evicted.disk, bytes]; exact written)
    refine wp_mono next ?_ (fun _ _ fails => fails)
    rintro _ u ⟨memory, disk', freed⟩
    refine ⟨?_, disk', fun c => ?_⟩
    · rw [memory, evicted.mapping, evicted.bpram, swapAll, here]
    · have lower := first.first
      rw [freed c, List.mem_cons]
      have staged : Freed t c ↔ c = b ∨ Freed s c := by
        unfold Freed
        rw [evicted.blockAlloc]
        simp only [List.mem_cons]
        constructor
        · rintro ⟨low, same | old⟩
          · exact Or.inl (by omega)
          · exact Or.inr ⟨low, old⟩
        · rintro (rfl | ⟨low, old⟩)
          · exact ⟨by omega, Or.inl rfl⟩
          · exact ⟨low, Or.inr old⟩
      rw [staged, or_comm (a := c = b), or_assoc]

/-- What the bulk path leaves staged differs from the single path as soon as there is a block. -/
theorem evict_paths_agree_iff {uses : DiskManager.Uses} {garbage : Nat → Nat} (ok : s.Ok)
    (disk : DiskManager.InUse s.disk uses) (limit : usub s.disk.totalBlockCount 1 ≤ 2 ^ 31)
    (room : arr.length ≤ s.disk.spare) (distinct : arr.Nodup) (evictable : ∀ b ∈ arr, Evictable s b)
    (leaves : ∀ b ∈ arr, ∀ c ∈ arr, s.indirMapping b ≠ c) :
    ∃ bulk single, antiCacheManagerBulkEvictToDisk arr garbage s = .ok () bulk ∧ evictEach arr s = .ok () single ∧
      bulk.bpram = single.bpram ∧ bulk.disk = single.disk ∧ ((∀ b, Freed bulk b ↔ Freed single b) ↔ arr = []) := by
  obtain ⟨numbers, dm, _, written, -⟩ := disk.bulk limit garbage (arr.map s.bpram) 0
  have together := bulkEvict_spec (E := fun _ _ => False) (fun b member => (evictable b member).toResident) written
  have apart := evictEach_spec ok disk limit room distinct evictable leaves written
  cases bulk : antiCacheManagerBulkEvictToDisk arr garbage s with
  | error e t => exact ((wp_error bulk).mp together).elim
  | ok _ t =>
    cases single : evictEach arr s with
    | error e u => exact ((wp_error single).mp apart).elim
    | ok _ u =>
      obtain ⟨memory, disk1, blocks⟩ := (wp_ok bulk).mp together
      obtain ⟨memory', disk2, freed⟩ := (wp_ok single).mp apart
      refine ⟨t, u, rfl, rfl, memory.trans memory'.symm, disk1.trans disk2.symm, ?_⟩
      have unstaged : ∀ b, Freed t b ↔ Freed s b := by
        intro b
        unfold Freed
        rw [blocks]
      constructor
      · intro same
        by_contra some
        obtain ⟨b, member⟩ := List.exists_mem_of_ne_nil _ some
        have staged : Freed u b := (freed b).mpr (Or.inr member)
        exact (evictable b member).kept ((unstaged b).mp ((same b).mpr staged))
      · rintro rfl b
        rw [unstaged, freed]
        simp

/-- Four blocks in use and a disk of eight: block 3 is an indirect block whose first entry is block 4. -/
def oneLeaf : Fs where
  bpram b o := if b = 3 ∧ o = 0 then 4 else 0
  blockAlloc := ⟨fun k => if k = 0 then 15 else 0, 64, 60, [], [], 0⟩
  inodeAlloc := ⟨fun _ => 0, 0, 0, [], [], 0⟩
  disk := DiskManager.initializeDiskManager (8 * blockSize) blockSize (fun _ => 0) 0
  indirMapping b := if b = 4 then 3 else 0
  currentIndirPointer := 0
  treeNblocksNblocks := 0
  iov := []
  inode := (.zeroBlock, 0)
  writes := []
  allocFailures := 0
  cacheCalls := []
  mappingAccesses := []

theorem oneLeaf_ok : oneLeaf.Ok where
  wf := ⟨rfl, fun _ member => absurd member List.not_mem_nil, List.nodup_nil,
    fun _ member => absurd member List.not_mem_nil, List.nodup_nil⟩
  small := by decide
  reserved := by decide

theorem oneLeaf_evictable : Evictable oneLeaf 4 where
  number := by decide
  parent := by decide
  points := ⟨0, by decide, by decide⟩
  first := by decide
  fits := by decide
  used := ⟨by decide, by decide, by decide⟩
  kept := fun staged => absurd staged.2 List.not_mem_nil

theorem evict_paths_agree_iff_oneLeaf : Evictable oneLeaf 4 ∧ ∃ bulk single,
    antiCacheManagerBulkEvictToDisk [4] (fun _ => 7) oneLeaf = .ok () bulk ∧ evictEach [4] oneLeaf = .ok () single ∧
      bulk.bpram = single.bpram ∧ bulk.disk = single.disk ∧ ((∀ b, Freed bulk b ↔ Freed single b) ↔ [4] = []) :=
  ⟨oneLeaf_evictable, evict_paths_agree_iff oneLeaf_ok (DiskManager.inUse_init _ _ _) (by decide) (by decide)
    (List.nodup_singleton _) (fun b member => by rw [List.mem_singleton.mp member]; exact oneLeaf_evictable)
    (fun b member c member' => by rw [List.mem_singleton.mp member, List.mem_singleton.mp member']; decide)⟩

/-- The staged frees a call leaves. -/
def stagedFrees : EStateM.Result Err Fs Unit → Option (List Nat)
  | .ok _ t => some t.blockAlloc.frees
  | .error _ _ => none

/-- Evicted alone, block 4 is staged to be freed; evicted in bulk, it is not. -/
theorem bulk_evict_keeps_block : stagedFrees (antiCacheManagerBulkEvictToDisk [4] (fun _ => 7) oneLeaf) = some [] ∧
    stagedFrees (evictEach [4] oneLeaf) = some [3] := by decide +kernel

end Bpfs
