import Bpfs.LeafCrawl

/-! File data as the leaves of a tree. A leaf is a block of NVM, a hole, or a block on
disk; a write from `lo` on that has come as far as `x` has put the new bytes from `lo`
to `x` in place and left the others as they were. -/

namespace Bpfs
open Lib

/-- The disk blocks that leaves may be on, and their contents. -/
abbrev DiskImage := Nat → Option (Nat → UInt8)

/-- The disk manager has the blocks of `D` and gives back what is in them. -/
structure DiskHolds (D : DiskImage) (dm : DiskManager) : Prop where
  size : dm.diskManagerBlockSize = blockSize
  cursor : dm.currentDiskBlockNumber < 2 ^ 63
  length : dm.currentDiskBlockNumber * blockSize ≤ dm.fileLen
  inside : ∀ {n : Nat} {block : Nat → UInt8}, D n = some block → n < dm.currentDiskBlockNumber
  file : ∀ {n : Nat} {block : Nat → UInt8}, D n = some block →
    ∀ o, o < blockSize → dm.file (n * blockSize + o) = block o
  cached : ∀ {n k index : Nat} {block : Nat → UInt8}, D n = some block → dm.prefetch n = some (k, index) →
    ∃ data, dm.buffers k = some data ∧ ∀ o, o < blockSize → data (index * blockSize + o) = block o
  buffered : ∀ {n k index : Nat}, dm.prefetch n = some (k, index) → k < dm.nbuffers

/-- A prefetching read returns the block and keeps the cache right. -/
theorem DiskHolds.read {D : DiskImage} {dm : DiskManager} (holds : DiskHolds D dm) {n : Nat}
    {block : Nat → UInt8} (here : D n = some block) :
    ∃ buf dm', dm.load n = some (buf, dm') ∧ DiskHolds D dm' ∧ ∀ o, o < blockSize → buf o = block o := by
  have before := holds.inside here
  have cursor := holds.cursor
  have length := holds.length
  simp only [DiskManager.load, DiskManager.readBlocksWithPrefetch, holds.size]
  cases cache : dm.prefetch n with
  | some entry =>
    obtain ⟨k, index⟩ := entry
    obtain ⟨data, buffer, bytes⟩ := holds.cached here cache
    simp only [buffer, Option.map_some]
    refine ⟨_, dm, rfl, holds, fun o inside => ?_⟩
    rw [if_pos inside, Option.getD_some]
    exact bytes o inside
  | none =>
    have count : dm.maxPrefetch n ≤ dm.currentDiskBlockNumber - n ∧ 0 < dm.maxPrefetch n := by
      unfold DiskManager.maxPrefetch usub readPrefetchBlockCount
      split <;> omega
    have room : n * blockSize + dm.maxPrefetch n * blockSize ≤ dm.fileLen := by
      rw [← Nat.add_mul]
      exact le_trans (Nat.mul_le_mul_right _ (by omega)) length
    simp only [if_pos room, Option.map_some]
    refine ⟨_, _, rfl, ⟨holds.size, cursor, length, holds.inside, holds.file, ?_, ?_⟩, fun o inside => ?_⟩
    · intro k buffer index block' here' cached
      simp only [DiskManager.cacheBlocks] at cached ⊢
      cases old : dm.prefetch k with
      | some entry =>
        rw [old] at cached
        cases cached
        obtain ⟨data, there, bytes⟩ := holds.cached here' old
        exact ⟨data, by rw [if_neg (Nat.ne_of_lt (holds.buffered old))]; exact there, bytes⟩
      | none =>
        rw [old] at cached
        dsimp only at cached
        split at cached
        · next within =>
          cases cached
          refine ⟨_, if_pos rfl, fun o inside => ?_⟩
          have offset : (k - n) * blockSize + o < dm.maxPrefetch n * blockSize := by
            have := Nat.mul_le_mul_right blockSize (show k - n + 1 ≤ dm.maxPrefetch n by omega)
            rw [Nat.succ_mul] at this
            omega
          have place : n * blockSize + ((k - n) * blockSize + o) = k * blockSize + o := by
            rw [← Nat.add_assoc, ← Nat.add_mul]
            congr 2
            omega
          rw [if_pos offset, place]
          exact holds.file here' o inside
        · cases cached
    · intro k buffer index cached
      simp only [DiskManager.cacheBlocks] at cached ⊢
      cases old : dm.prefetch k with
      | some entry =>
        rw [old] at cached
        cases cached
        exact Nat.lt_succ_of_lt (holds.buffered old)
      | none =>
        rw [old] at cached
        dsimp only at cached
        split at cached
        · cases cached
          exact Nat.lt_succ_self _
        · cases cached
    · have first : o < dm.maxPrefetch n * blockSize := lt_of_lt_of_le inside (Nat.le_mul_of_pos_left _ count.2)
      rw [if_pos inside, Option.getD_some, if_pos first]
      exact holds.file here o inside

/-- A leaf pointer that means something: a hole, a block of NVM, a block on disk. -/
def LeafPointer (D : DiskImage) (q : Nat) : Prop :=
  q = 0 ∨ (3 ≤ q ∧ q < 2 ^ 61) ∨ (2 ^ 63 ≤ q ∧ q < 2 ^ 64 ∧ D (q - 2 ^ 63) ≠ none)

/-- Byte `o` of the leaf behind `q`. -/
def leafByte (D : DiskImage) (m : Mem) (q o : Nat) : UInt8 :=
  if q = 0 then 0
  else if q < 2 ^ 63 then m q o
  else match D (q - 2 ^ 63) with
    | some block => block o
    | none => 0

/-- A file's bytes when a write of `new` from `lo` on has come as far as `x`. -/
def written (lo : Nat) (old new : Nat → UInt8) (x b : Nat) : UInt8 :=
  if lo ≤ b ∧ b < x then new b else old b

theorem leafByte_congr {D : DiskImage} {m m' : Mem} {q : Nat} (same : q ≠ 0 → m' q = m q) (o : Nat) :
    leafByte D m' q o = leafByte D m q o := by
  unfold leafByte
  by_cases hole : q = 0
  · rw [if_pos hole, if_pos hole]
  · rw [same hole]

theorem leafByte_nvm {D : DiskImage} {m : Mem} {q o : Nat} (nvm : 3 ≤ q ∧ q < 2 ^ 61) :
    leafByte D m q o = m q o := by
  rw [leafByte, if_neg (by omega), if_pos (by omega)]

theorem leafByte_hole {D : DiskImage} {m : Mem} {o : Nat} : leafByte D m 0 o = 0 := if_pos rfl

theorem no_hole_blocks : {b | b = 0 ∧ 0 ≠ 0} = (∅ : Set Nat) := by simp

/-- The bytes of a block before two positions are the same if the block cannot tell them apart. -/
theorem before_clamp {x y i o : Nat} (same : clampTo x (blockSize * i) (blockSize * i + blockSize) =
    clampTo y (blockSize * i) (blockSize * i + blockSize)) (inside : o < blockSize) : base i + o < x ↔ base i + o < y := by
  simp only [clampTo, base] at *
  omega

/-- The leaves of a file. -/
def fileLeaves (D : DiskImage) (lo : Nat) (old new : Nat → UInt8) : Leaves where
  blocks _ _ q _ := {b | b = q ∧ q ≠ 0}
  ok x m i q v := LeafPointer D q ∧ ∀ o, o < v → o < blockSize → leafByte D m q o = written lo old new x (base i + o)
  hole_blocks _ _ _ := no_hole_blocks
  local_blocks _ := rfl
  local_ok same ok := ⟨ok.1, fun o valid inside => by
    rw [leafByte_congr (fun present => same _ ⟨rfl, present⟩)]
    exact ok.2 o valid inside⟩
  mono_blocks _ _ member := member
  mono_ok le ok := ⟨ok.1, fun o valid inside => ok.2 o (Nat.lt_of_lt_of_le valid le) inside⟩
  clamp_ok := by
    intro x y m i q v same ok
    refine ⟨ok.1, fun o valid inside => ?_⟩
    rw [ok.2 o valid inside]
    simp only [written, before_clamp same inside]

/-- The leaves of a file with the bytes `c`, when nothing is being written. -/
def dataLeaves (D : DiskImage) (c : Nat → UInt8) : Leaves := fileLeaves D 0 c c

theorem dataLeaves_ok {D : DiskImage} {c : Nat → UInt8} {x : Nat} {m : Mem} {i q v : Nat} :
    (dataLeaves D c).ok x m i q v ↔
      LeafPointer D q ∧ ∀ o, o < v → o < blockSize → leafByte D m q o = c (base i + o) := by
  simp only [dataLeaves, fileLeaves, written, ite_self]

theorem treeBlocks_fileLeaves (D : DiskImage) (lo : Nat) (old new c : Nat → UInt8) (m : Mem) (h i p v : Nat) :
    treeBlocks (fileLeaves D lo old new) m h i p v = treeBlocks (dataLeaves D c) m h i p v := by
  induction h generalizing i p v with
  | zero => rfl
  | succ h ih => simp only [treeBlocks, ih]

/-- In a write that has come as far as `x` the tree holds the bytes written so far and
the old ones. -/
theorem fileTree_iff {D : DiskImage} {lo : Nat} {old new c : Nat → UInt8} {x y : Nat} {m : Mem} {h i p v : Nat}
    (bytes : ∀ b, base i ≤ b → b < base i + v → c b = written lo old new x b) :
    TreeOk (fileLeaves D lo old new) x m h i p v ↔ TreeOk (dataLeaves D c) y m h i p v := by
  induction h generalizing i p v with
  | zero =>
    refine imp_congr_right (fun some => ?_)
    rw [dataLeaves_ok]
    refine and_congr_right (fun _ => forall_congr' (fun o => forall_congr' (fun inside => ?_)))
    rw [bytes _ (Nat.le_add_right _ _) (by omega)]
  | succ h ih =>
    have below : ∀ k, k < 512 → (TreeOk (fileLeaves D lo old new) x m h (i + k * 512 ^ h) (slot m p k) (share h v k) ↔
        TreeOk (dataLeaves D c) y m h (i + k * 512 ^ h) (slot m p k) (share h v k)) := by
      intro k small
      have start := base_kid h i k
      refine ih (fun b low high => ?_)
      change base (kid h i k) ≤ b at low
      change b < base (kid h i k) + share h v k at high
      unfold share at high
      exact bytes b (by omega) (by omega)
    simp only [TreeOk, kidBlocks, Apart, treeBlocks_fileLeaves D lo old new c]
    refine imp_congr_right (fun some => and_congr_right (fun _ => and_congr_left (fun _ => ?_)))
    exact forall_congr' (fun k => imp_congr_right (fun small => below k small))

/-- A write of the bytes from `lo` to `hi` to a file of `g` bytes. -/
structure FileWrite where
  D : DiskImage
  g : Nat
  lo : Nat
  hi : Nat
  old : Nat → UInt8
  new : Nat → UInt8
  ordered : lo < hi
  bounded : hi < 2 ^ 64
  gap : ∀ b, g ≤ b → b < lo → old b = 0
  /-- the crawler may fail the assertion on the copy that "should not occur" -/
  trip : Prop

namespace FileWrite

theorem xor_diskFlag {q : Nat} (low : 2 ^ 63 ≤ q) (high : q < 2 ^ 64) : q ^^^ diskFlag = q - 2 ^ 63 := by
  obtain ⟨r, rfl⟩ : ∃ r, q = 2 ^ 63 + r := ⟨q - 2 ^ 63, by omega⟩
  have small : r < 2 ^ 63 := by omega
  rw [Nat.add_sub_cancel_left, diskFlag]
  apply Nat.eq_of_testBit_eq
  intro j
  rw [Nat.testBit_xor, Nat.testBit_two_pow]
  rcases Nat.lt_trichotomy j 63 with below | rfl | above
  · rw [Nat.testBit_two_pow_add_gt below, decide_eq_false (by omega), Bool.xor_false]
  · rw [Nat.testBit_two_pow_add_eq, decide_eq_true rfl, Nat.testBit_lt_two_pow small]
    rfl
  · have wide : 2 ^ 64 ≤ 2 ^ j := Nat.pow_le_pow_right (by decide) above
    rw [Nat.testBit_lt_two_pow (by omega), Nat.testBit_lt_two_pow (by omega), decide_eq_false (by omega)]
    rfl

/-- The sweep that a write makes over the file's tree. -/
def sweep (F : FileWrite) : Sweep where
  leaves := fileLeaves F.D F.lo F.old F.new
  g := F.g
  lo := F.lo
  hi := F.hi
  ordered := F.ordered
  bounded := F.bounded
  disk := DiskHolds F.D
  resident := ∀ n, F.D n = none
  errors := fun e => e = .enospc ∨ (e = .assertion .crawlIndirCow ∧ F.trip)
  moving := True
  errors_enospc := Or.inl rfl
  gap := by
    intro m i v late early
    refine ⟨Or.inl rfl, fun o valid inside => ?_⟩
    rw [leafByte_hole, written, if_neg (by omega)]
    exact (F.gap _ (by omega) (by omega)).symm
  early := by
    intro x m i q v early ok
    refine ⟨ok.1, fun o valid inside => ?_⟩
    rw [ok.2 o valid inside, written, written, if_neg (by omega), if_neg (by omega)]
  pointer := by
    intro x m i q v _ ok
    rcases ok.1 with hole | nvm | disk
    · exact Or.inl hole
    · exact Or.inr (Or.inl nvm)
    · exact Or.inr (Or.inr ⟨disk.1, disk.2.1⟩)
  owns present := ⟨rfl, present⟩
  resident_ok := by
    intro resident x m i q v _ _ ok
    rcases ok.1 with hole | nvm | disk
    · omega
    · omega
    · exact absurd (resident _) disk.2.2
  fetch := by
    intro dm x m i q v holds _ far ok
    obtain ⟨top, here⟩ : q < 2 ^ 64 ∧ F.D (q - 2 ^ 63) ≠ none := by
      rcases ok.1 with hole | nvm | disk
      · omega
      · omega
      · exact disk.2
    obtain ⟨block, there⟩ := Option.ne_none_iff_exists'.mp here
    obtain ⟨buf, dm', read, holds', bytes⟩ := holds.read there
    refine ⟨buf, dm', by rw [xor_diskFlag far top]; exact read, holds', fun m' b low high same => ⟨⟨?_, ?_⟩, ?_⟩⟩
    · exact Or.inr (Or.inl ⟨low, high⟩)
    · intro o valid inside
      rw [leafByte_nvm ⟨low, high⟩, same o inside, bytes o inside, ← ok.2 o valid inside, leafByte,
        if_neg (by omega), if_neg (by omega), there]
    · ext y
      simp only [fileLeaves, Set.mem_ofPred_eq, Set.mem_singleton_iff]
      omega

/-! ### One leaf -/

variable {F : FileWrite} {s t : Fs} {i p b : Nat} {commit : Commit}

/-- Block `b` of memory `m` holds what the write makes of the leaf behind `p`. -/
structure Filled (F : FileWrite) (s : Fs) (i p : Nat) (m : Mem) (b : Nat) : Prop where
  inside : ∀ o, enter F.lo i ≤ base i + o → base i + o < leave F.hi 0 i → m b o = F.new (base i + o)
  outside : ∀ o, o < blockSize → base i + o < enter F.lo i ∨ (leave F.hi 0 i ≤ base i + o ∧ base i + o < F.g) →
    m b o = leafByte F.D s.bpram p o

theorem Filled.holds {m : Mem} (filled : F.Filled s i p m b) (ready : F.sweep.Ready s 0 i p)
    (nvm : 3 ≤ b ∧ b < 2 ^ 61) : F.sweep.Holds F.hi (max F.g F.hi) m 0 i b := by
  intro _
  refine ⟨Or.inr (Or.inl nvm), fun o valid inside => ?_⟩
  change o < validIn (max F.g F.hi) 0 i at valid
  have before : ∀ n, base i + o < n → n ≤ max F.g F.lo → leafByte F.D s.bpram p o = F.old (base i + o) := by
    intro n less le
    have some : validIn (max F.g F.lo) 0 i ≠ 0 ∧ o < validIn (max F.g F.lo) 0 i := by
      simp only [validIn, span_zero]
      omega
    rw [(ready.tree some.1).2 o some.2 inside]
    exact if_neg (fun within => absurd within.2 (by change ¬base i + o < F.lo; omega))
  rw [leafByte_nvm nvm, written]
  simp only [validIn, span_zero] at valid
  have ordered := F.ordered
  by_cases early : base i + o < enter F.lo i
  · have low : base i + o < F.lo := by
      simp only [enter] at early
      omega
    rw [filled.outside o inside (Or.inl early), if_neg (by omega)]
    exact before F.lo low (le_max_right _ _)
  by_cases within : base i + o < leave F.hi 0 i
  · rw [filled.inside o (by omega) within, if_pos]
    simp only [enter, leave] at *
    omega
  · have late : F.hi ≤ base i + o ∧ base i + o < F.g := by
      simp only [leave, span_zero] at within
      omega
    rw [filled.outside o inside (Or.inr ⟨by omega, late.2⟩), if_neg (by omega)]
    exact before F.g late.2 (le_max_left _ _)

theorem mem_owned {n : Nat} {m : Mem} {y : Nat} :
    y ∈ F.sweep.owned n m 0 i p ↔ y = p ∧ p ≠ 0 ∧ validIn n 0 i ≠ 0 := by
  simp only [Sweep.owned, treeBlocks]
  split
  · next none => simp [none]
  · next some =>
    change y = p ∧ p ≠ 0 ↔ _
    simp [some]

/-- A leaf that exists is one of the subtree's blocks, and in use. -/
theorem leaf_live (ready : F.sweep.Ready s 0 i p) (present : p ≠ 0) :
    p ∈ F.sweep.mine s 0 i p ∧ 3 ≤ p ∧ p < 2 ^ 61 ∧ Allocated s p ∧ ¬Freed s p := by
  have born : base i < F.g := by
    by_contra behind
    exact present (ready.unborn (by change F.g ≤ base i; omega))
  have some : validIn (max F.g F.lo) 0 i ≠ 0 := Sweep.valid_of_born (by omega)
  have mine : p ∈ F.sweep.mine s 0 i p := mem_owned.mpr ⟨rfl, present, some⟩
  have nvm := ready.nvm
  refine ⟨mine, ?_⟩
  rcases ready.live p mine with used | far
  · rcases (ready.tree some).1 with hole | block | disk
    · exact absurd hole present
    · exact ⟨block.1, block.2, used⟩
    · omega
  · omega

/-- The leaf reads as before where its valid bytes are as before. -/
theorem old_leaf (ready : F.sweep.Ready s 0 i p) {m : Mem}
    (same : ∀ o, o < validIn F.g 0 i → leafByte F.D m p o = leafByte F.D s.bpram p o) :
    F.sweep.OldAt s t 0 i p m := by
  refine ⟨fun some => ?_, fun y member => Or.inl ?_⟩
  · have tree := ready.tree.mono (Sweep.validIn_mono (n := F.g) (Nat.le_max_left _ _)) some
    refine ⟨tree.1, fun o valid inside => ?_⟩
    rw [same o valid]
    exact tree.2 o valid inside
  · obtain ⟨root, present, some⟩ := mem_owned.mp member
    refine mem_owned.mpr ⟨root, present, ?_⟩
    change validIn F.g 0 i ≠ 0 at some
    change validIn (max F.g F.lo) 0 i ≠ 0
    simp only [validIn] at *
    omega

/-- The leaf was written to a block that nobody knows yet. -/
theorem done_fresh (ready : F.sweep.Ready s 0 i p) {gone : Set Nat} (fresh : Fresh s b gone t)
    (release : ∀ y ∈ gone, y = p ∧ p ≠ 0) (filled : F.Filled s i p t.bpram b)
    (seen : commit = .atomic → F.g ≤ enter F.lo i → p = 0) : F.sweep.Done s 0 i p commit b t := by
  have nvm : 3 ≤ b ∧ b < 2 ^ 61 := ⟨fresh.unused.1, fresh.unused.lt ready.ok⟩
  have taken : Taken s t b := ⟨fresh.unused, (fresh.allocated b).mpr (Or.inr rfl)⟩
  have goneMine : ∀ y ∈ gone, y ∈ F.sweep.mine s 0 i p ∧ Allocated s y := by
    intro y member
    obtain ⟨rfl, present⟩ := release y member
    exact ⟨(leaf_live ready present).1, (leaf_live ready present).2.2.2.1⟩
  have other : p ≠ 0 → p ≠ b := fun present same => fresh.unused.2.2 (same ▸ (leaf_live ready present).2.2.2.1)
  exact {
    grow := fresh.grow
    disk := fresh.disk.symm ▸ ready.disk
    new := ⟨filled.holds ready nvm, fun y member => Or.inr ((mem_owned.mp member).1 ▸ taken)⟩
    live := fun y member => by
      rw [(mem_owned.mp member).1]
      exact Or.inl ⟨taken.2, fresh.not_freed ready.ok (fun y member => (goneMine y member).2)⟩
    freed := fun y freed => by
      rcases (fresh.freed y).mp freed with before | member
      · exact Or.inl before
      · exact Or.inr (Or.inl (goneMine y member).1)
    crash := fresh.through.mono (fun m agree => ⟨fun y held _ => agree y (fun same =>
        fresh.unused.not_held ready.ok (same ▸ held)),
      Or.inl (old_leaf ready (fun o _ => leafByte_congr (fun present => agree p (other present)) o))⟩)
    nvm := ⟨by omega, nvm.2⟩
    stays := fun atomic behind present => absurd (seen atomic behind) present
    moves := fun _ _ _ same => by
      by_cases present : p = 0
      · omega
      · exact other present same.symm }

/-- The store `w` puts the new bytes of the leaf in block `b`. -/
structure Puts (F : FileWrite) (i b : Nat) (w : Write) : Prop where
  block : w.blk = b
  off : base i + w.off = enter F.lo i
  len : enter F.lo i + w.len = leave F.hi 0 i
  data : ∀ k, k < w.len → w.data k = F.new (enter F.lo i + k)

/-- A block that had the old bytes around the range before the new ones were stored. -/
theorem Puts.filled {w : Write} (puts : F.Puts i b w)
    (around : ∀ o, o < w.off ∨ (w.off + w.len ≤ o ∧ o < validIn F.g 0 i) → t.bpram b o = leafByte F.D s.bpram p o) :
    F.Filled s i p (t.store w).bpram b := by
  obtain ⟨block, off, len, data⟩ := puts
  refine ⟨fun o first last => ?_, fun o inside out => ?_⟩
  · rw [store_bpram, apply_covered ⟨block.symm, by omega, by omega⟩, data _ (by omega)]
    congr 1
    omega
  · rw [store_bpram, apply_uncovered (fun cover => by have := cover.2; omega)]
    apply around
    simp only [validIn, span_zero]
    omega

/-- The leaf was written in place. -/
theorem done_inplace (ready : F.sweep.Ready s 0 i p) (present : p ≠ 0) (atomic : commit = .atomic)
    {w : Write} (puts : F.Puts i p w) (once : w.atomic = true ∨ F.g ≤ enter F.lo i) :
    F.sweep.Done s 0 i p commit p (s.store w) := by
  obtain ⟨mine, low, high, used, kept⟩ := leaf_live ready present
  have nvm : 3 ≤ p ∧ p < 2 ^ 61 := ⟨low, high⟩
  have filled : F.Filled s i p (s.store w).bpram p := puts.filled (fun o _ => (leafByte_nvm nvm).symm)
  have block := puts.block
  have off := puts.off
  have keeps : ∀ n, Keeps s (F.sweep.mine s 0 i p) (s.bpram.apply { w with len := n }) :=
    fun n y _ outside => apply_other (fun (same : y = w.blk) => outside (same ▸ block ▸ mine))
  have hidden : F.g ≤ enter F.lo i → ∀ n, F.sweep.OldAt s (s.store w) 0 i p (s.bpram.apply { w with len := n }) := by
    intro behind n
    refine old_leaf ready (fun o valid => ?_)
    rw [leafByte_nvm nvm, leafByte_nvm nvm, apply_uncovered (fun cover => ?_)]
    have first : w.off ≤ o := cover.2.1
    simp only [validIn] at valid
    omega
  have new : F.sweep.NewAt s (s.store w) 0 i p p (s.store w).bpram :=
    ⟨filled.holds ready nvm, fun y member => Or.inl ((mem_owned.mp member).1 ▸ mine)⟩
  exact {
    grow := grow_store w
    disk := ready.disk
    new := new
    live := fun y member => by
      rw [(mem_owned.mp member).1]
      exact Or.inl ⟨used, kept⟩
    freed := fun y gone => Or.inl gone
    crash := by
      refine through_store ⟨fun _ _ _ => rfl, Or.inl (old_leaf ready (fun _ _ => rfl))⟩ ⟨keeps w.len, ?_⟩
        (fun loose n short => ⟨keeps n, Or.inl (hidden (once.resolve_left (by rw [loose]; decide)) n)⟩)
      by_cases behind : F.g ≤ enter F.lo i
      · exact Or.inl (hidden behind w.len)
      · exact Or.inr ⟨atomic, by change enter F.lo i < F.g; omega, rfl, new⟩
    nvm := ⟨present, high⟩
    stays := fun _ _ _ => rfl
    moves := fun _ copy => by
      rw [atomic] at copy
      cases copy }

end FileWrite

end Bpfs
