import Bpfs.Superblock
import Bpfs.Disk

/-! The sizes of the file system and of its memory: what `mkbpfs` writes into the superblock and what `main` checks
before it mounts. The comparison in `main` is the wrong way round, so it accepts exactly the images that are too large
or that fill the memory. -/

namespace Bpfs
namespace Sp

def minNblocks : Nat := 7
/-- The number of blocks must be a multiple of the bits in a scan word. -/
def nblocksModulus : Nat := 64
def treeRootMaxAddr : Nat := 2 ^ 61 - 1

namespace Super

def version (s : Super) : Nat := s 0 / 2 ^ 32 % 2 ^ 32
def nblocks (s : Super) : Nat := s 3

end Super

/-- `ROUNDDOWN64`, for a modulus that is a power of two. -/
def roundDown64 (a n : Nat) : Nat := a - a % n

/-- `mkbpfs`: the superblock that it writes, in both copies, unless it answers with `-ENOSPC`. The other blocks it
writes are not checked when the file system is mounted. -/
def mkbpfs (bpramSize uuid0 uuid1 : Nat) : Option Super :=
  if bpramSize < minNblocks * blockSize then none
  else if bpramSize < nblocksModulus * blockSize then none
  else
    let nblocks := roundDown64 (bpramSize / blockSize) nblocksModulus
    some (Super.made uuid0 uuid1 (if treeRootMaxAddr + 1 < nblocks then treeRootMaxAddr + 1 else nblocks))

/-- The checks of the superblock in `main`. -/
def mountAccepts (super : Super) (bpramSize : Nat) : Bool :=
  if super.magic ≠ fsMagic then false
  else if super.version ≠ structVersion then false
  else if u64 (super.nblocks * blockSize) < bpramSize then false
  else true

section Sizes

variable {super : Super} {bpramSize uuid0 uuid1 : Nat}

theorem mountAccepts_iff : mountAccepts super bpramSize = true ↔
    super.magic = fsMagic ∧ super.version = structVersion ∧ bpramSize ≤ u64 (super.nblocks * blockSize) := by
  unfold mountAccepts
  by_cases magic : super.magic = fsMagic
  · by_cases version : super.version = structVersion
    · simp [magic, version]
    · simp [version]
  · simp [magic]

theorem made_fields (uuid0 uuid1 nblocks : Nat) : (Super.made uuid0 uuid1 nblocks).magic = fsMagic ∧
    (Super.made uuid0 uuid1 nblocks).version = structVersion ∧ (Super.made uuid0 uuid1 nblocks).nblocks = nblocks :=
  ⟨by simp [Super.magic, Super.made, fsMagic, structVersion], by simp [Super.version, Super.made, fsMagic, structVersion],
    rfl⟩

/-- A formatted file system has all whole groups of 64 blocks. -/
theorem mkbpfs_nblocks (small : bpramSize < 2 ^ 64) (made : mkbpfs bpramSize uuid0 uuid1 = some super) :
    super = Super.made uuid0 uuid1 (bpramSize / 262144 * 64) := by
  unfold mkbpfs at made
  split at made
  · cases made
  split at made
  · cases made
  have count : roundDown64 (bpramSize / blockSize) nblocksModulus = bpramSize / 262144 * 64 := by
    unfold roundDown64 blockSize nblocksModulus
    omega
  have limit : ¬treeRootMaxAddr + 1 < bpramSize / 262144 * 64 := by
    unfold treeRootMaxAddr
    omega
  dsimp only at made
  rw [count, if_neg limit] at made
  exact (Option.some.inj made).symm

/-- A formatted file system is accepted exactly if its blocks fill the memory. -/
theorem mount_formatted (small : bpramSize < 2 ^ 64) (made : mkbpfs bpramSize uuid0 uuid1 = some super) :
    mountAccepts super bpramSize = true ↔ bpramSize % 262144 = 0 := by
  rw [mkbpfs_nblocks small made, mountAccepts_iff]
  obtain ⟨magic, version, nblocks⟩ := made_fields uuid0 uuid1 (bpramSize / 262144 * 64)
  rw [nblocks, u64, blockSize]
  constructor
  · rintro ⟨-, -, fits⟩
    omega
  · intro whole
    exact ⟨magic, version, by omega⟩

/-- An accepted file system is inside the memory exactly if its blocks fill it. -/
theorem mount_inside (small : bpramSize < 2 ^ 64) (accepted : mountAccepts super bpramSize = true) :
    super.nblocks * blockSize ≤ bpramSize ↔ super.nblocks * blockSize = bpramSize := by
  obtain ⟨-, -, fits⟩ := mountAccepts_iff.mp accepted
  unfold u64 at fits
  omega

/-- The two sides agree exactly where the blocks fill the memory. -/
theorem mount_checks_iff (small : bpramSize < 2 ^ 64) :
    (∀ uuid0 uuid1 super, mkbpfs bpramSize uuid0 uuid1 = some super →
      (mountAccepts super bpramSize = true ↔ bpramSize % 262144 = 0)) ∧
    ∀ super, mountAccepts super bpramSize = true →
      (super.nblocks * blockSize ≤ bpramSize ↔ super.nblocks * blockSize = bpramSize) :=
  ⟨fun _ _ _ made => mount_formatted small made, fun _ accepted => mount_inside small accepted⟩

theorem mount_checks_iff_64 : (Super.made 0 0 64).nblocks * blockSize ≤ 262144 ↔
    (Super.made 0 0 64).nblocks * blockSize = 262144 :=
  (mount_checks_iff (show 262144 < 2 ^ 64 by decide)).2 (Super.made 0 0 64) (by decide)

/-- A file system formatted in 300000 bytes is refused there, and one of 128 blocks is accepted in 64 blocks of memory. -/
theorem mount_wrong_way : (∃ super, mkbpfs 300000 0 0 = some super ∧ mountAccepts super 300000 = false) ∧
    ∃ super : Super, mountAccepts super 262144 = true ∧ 262144 < super.nblocks * blockSize :=
  ⟨⟨_, rfl, by decide⟩, Super.made 0 0 128, by decide, by decide⟩

end Sizes

end Sp

end Bpfs
