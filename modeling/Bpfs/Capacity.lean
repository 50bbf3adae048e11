import Bpfs.CrawlRange

/-! The height and the capacity of a tree in 64-bit arithmetic. Counted in blocks nothing wraps
for any file an `off_t` can address; counted in bytes the capacity of a tree of height six does. -/

namespace Bpfs

/-- The loop of `tree_height` for at most `n` rounds: no answer when it is still running then. -/
def treeHeightRun (nblocks : Nat) : Nat → Nat → Nat → Option Nat
  | 0, _, _ => none
  | n + 1, height, maxNblocks =>
      if maxNblocks < nblocks then treeHeightRun nblocks n (height + 1) (u64 (maxNblocks * blocknosPerIndir))
      else some height

/-- `h` is the least height whose tree has `nblocks` blocks. -/
structure LeastHeight (nblocks h : Nat) : Prop where
  enough : nblocks ≤ 512 ^ h
  least : ∀ j, j < h → 512 ^ j < nblocks

theorem u64_pow_succ {k : Nat} (low : k ≤ 6) : u64 (512 ^ k * blocknosPerIndir) = 512 ^ (k + 1) := by
  have bound : 512 ^ (k + 1) ≤ 512 ^ 7 := Nat.pow_le_pow_right (by decide) (by omega)
  rw [u64, blocknosPerIndir, ← Nat.pow_succ]
  exact Nat.mod_eq_of_lt (lt_of_le_of_lt bound (by decide))

/-- From level `k` on, the loop stops at the least height, with or without a bound on its rounds. -/
theorem treeHeight_from {nblocks k n : Nat} (small : nblocks ≤ 512 ^ 7) (low : k ≤ 7)
    (below : ∀ j, j < k → 512 ^ j < nblocks) (rounds : 7 < k + n) :
    ∃ h, treeHeightRun nblocks n k (512 ^ k) = some h ∧ treeHeightLoop nblocks (7 - k) k (512 ^ k) = h ∧
      h ≤ 7 ∧ LeastHeight nblocks h := by
  induction n generalizing k with
  | zero => omega
  | succ n ih =>
    rw [treeHeightRun]
    by_cases more : 512 ^ k < nblocks
    · have lower : k ≤ 6 := by
        by_contra top
        rw [show k = 7 by omega] at more
        omega
      rw [if_pos more, u64_pow_succ lower, show 7 - k = 7 - (k + 1) + 1 by omega, treeHeightLoop, if_pos more,
        u64_pow_succ lower]
      refine ih (by omega) (fun j early => ?_) (by omega)
      rcases Nat.lt_succ_iff_lt_or_eq.mp early with before | rfl
      · exact below j before
      · exact more
    · rw [if_neg more]
      refine ⟨k, rfl, ?_, low, by omega, below⟩
      cases 7 - k with
      | zero => rfl
      | succ m => rw [treeHeightLoop, if_neg more]

theorem treeHeight_least {n : Nat} (small : n ≤ 512 ^ 7) : treeHeight n ≤ 7 ∧ LeastHeight n (treeHeight n) := by
  obtain ⟨h, -, loop, height, least⟩ := treeHeight_from (k := 0) (n := 8) small (by decide)
    (fun j early => absurd early (Nat.not_lt_zero _)) (by decide)
  have same : treeHeight n = h := loop
  rw [same]
  exact ⟨height, least⟩

theorem nblocksForNbytes_eq {n : Nat} (small : n ≤ 2 ^ 63) : nblocksForNbytes n = (n + (blockSize - 1)) / blockSize := by
  unfold nblocksForNbytes u64 blockSize
  omega

/-- What the tree functions rely on for a file that ends at byte `e`. -/
structure CapacityRight (e : Nat) : Prop where
  terminates : ∃ n, treeHeightRun (nblocksForNbytes e) n 0 1 = some (treeHeight (nblocksForNbytes e))
  least : LeastHeight ((e + 4095) / 4096) (treeHeight (nblocksForNbytes e))
  height : treeHeight (nblocksForNbytes e) ≤ treeMaxHeight
  exact : nbytesOfBlocks (treeMaxNblocks (treeHeight (nblocksForNbytes e))) =
    blockSize * 512 ^ treeHeight (nblocksForNbytes e)
  holds : e ≤ nbytesOfBlocks (treeMaxNblocks (treeHeight (nblocksForNbytes e)))

/-- A tree of at most five levels is what a file of at most 2^57 bytes needs. -/
theorem leastHeight_le_five_iff {e h : Nat} (least : LeastHeight ((e + 4095) / 4096) h) : h ≤ 5 ↔ e ≤ 2 ^ 57 := by
  constructor
  · intro low
    have bound : 512 ^ h ≤ 512 ^ 5 := Nat.pow_le_pow_right (by decide) low
    have enough := least.enough
    omega
  · intro small
    by_contra tall
    have below := least.least 5 (by omega)
    omega

/-- The capacity is computed right exactly up to files of 2^57 bytes. -/
theorem capacityRight_iff {e : Nat} (positive : 0 < e) (reach : e ≤ 2 ^ 63 - 1) : CapacityRight e ↔ e ≤ 2 ^ 57 := by
  have blocks : nblocksForNbytes e = (e + 4095) / 4096 := nblocksForNbytes_eq (by omega)
  obtain ⟨h, run, loop, height, least⟩ := treeHeight_from (k := 0) (n := 8)
    (show nblocksForNbytes e ≤ 512 ^ 7 by rw [blocks]; omega) (by decide) (fun j early => by omega) (by decide)
  have same : treeHeight (nblocksForNbytes e) = h := loop
  rw [blocks] at least
  have five := leastHeight_le_five_iff least
  have six : h ≤ 6 := by
    by_contra tall
    have below := least.least 6 (by omega)
    omega
  rw [← five]
  constructor
  · intro right
    by_contra tall
    -- at height six the product of 2^54 blocks and 2^12 bytes wraps to zero
    have top : h = 6 := by omega
    have covers := right.holds
    rw [same, top, treeMaxNblocks_eq (le_refl 6), nbytesOfBlocks, u64, show 512 ^ 6 * blockSize % 2 ^ 64 = 0 by decide]
      at covers
    omega
  · intro low
    have exact' : nbytesOfBlocks (treeMaxNblocks h) = blockSize * 512 ^ h := by
      rw [treeMaxNblocks_eq six, nbytesOfBlocks_eq low, span]
    refine ⟨⟨8, by rw [same]; exact run⟩, by rw [same]; exact least, by rw [same]; exact height, ?_, ?_⟩
    · rw [same]
      exact exact'
    · rw [same, exact', blockSize]
      have enough := least.enough
      omega

theorem capacityRight_iff_one : (0 < 1 ∧ 1 ≤ 2 ^ 63 - 1) ∧ (CapacityRight 1 ↔ 1 ≤ 2 ^ 57) :=
  ⟨by decide, capacityRight_iff (by decide) (by decide)⟩

/-- One byte more than 2^57 needs height six, whose capacity in bytes comes out as zero. -/
theorem capacity_wraps : treeHeight (nblocksForNbytes (2 ^ 57 + 1)) = 6 ∧
    nbytesOfBlocks (treeMaxNblocks (treeHeight (nblocksForNbytes (2 ^ 57 + 1)))) = 0 := by decide

end Bpfs
