import Bpfs.TreeGrowth

/-! What a tree in NVM holds, byte by byte. A byte is found by following one entry per level, and
a missing block reads as zeros; the blocks on the way to a byte are all that it depends on. -/

namespace Bpfs
open Lib

/-- Byte `y` of the tree of height `h` at `p`. -/
def treeByte (m : Mem) : Nat → Nat → Nat → UInt8
  | 0, p, y => if p = 0 then 0 else m p y
  | h + 1, p, y => if p = 0 then 0 else treeByte m h (addrAt m p (y / span h)) (y % span h)

/-- The blocks on the way to byte `y`. -/
def treePath (m : Mem) : Nat → Nat → Nat → List Nat
  | 0, p, _ => if p = 0 then [] else [p]
  | h + 1, p, y => if p = 0 then [] else p :: treePath m h (addrAt m p (y / span h)) (y % span h)

/-- Byte `y` of a file whose tree has height `h`; there are only zeros beyond the tree. -/
def fileByte (m : Mem) (h p y : Nat) : UInt8 := if y < span h then treeByte m h p y else 0

/-- Byte `y` of the file with the root at offset `o` of block `R`. -/
def rootByte (m : Mem) (R o y : Nat) : UInt8 :=
  fileByte m (treeRootHeight m ⟨.bpram R, o⟩) (treeRootAddr m ⟨.bpram R, o⟩) y

variable {m m' : Mem} {h p y : Nat}

@[simp] theorem treeByte_hole (m : Mem) (h y : Nat) : treeByte m h 0 y = 0 := by
  cases h <;> simp [treeByte]

@[simp] theorem treePath_hole (m : Mem) (h y : Nat) : treePath m h 0 y = [] := by
  cases h <;> simp [treePath]

@[simp] theorem fileByte_hole (m : Mem) (h y : Nat) : fileByte m h 0 y = 0 := by
  simp [fileByte]

theorem treeByte_succ (present : p ≠ 0) :
    treeByte m (h + 1) p y = treeByte m h (addrAt m p (y / span h)) (y % span h) := by
  rw [treeByte, if_neg present]

theorem treePath_succ (present : p ≠ 0) :
    treePath m (h + 1) p y = p :: treePath m h (addrAt m p (y / span h)) (y % span h) := by
  rw [treePath, if_neg present]

theorem mem_treePath_self (present : p ≠ 0) : p ∈ treePath m h p y := by
  cases h with
  | zero => simp [treePath, present]
  | succ h => simp [treePath, present]

theorem treePath_congr (same : ∀ b ∈ treePath m h p y, m' b = m b) : treePath m' h p y = treePath m h p y := by
  induction h generalizing p y with
  | zero => rfl
  | succ h ih =>
    by_cases hole : p = 0
    · simp [hole]
    rw [treePath_succ hole] at same ⊢
    rw [treePath_succ hole, addrAt_congr (same p List.mem_cons_self),
      ih fun b member => same b (List.mem_cons_of_mem _ member)]

theorem treeByte_congr (same : ∀ b ∈ treePath m h p y, m' b = m b) : treeByte m' h p y = treeByte m h p y := by
  induction h generalizing p y with
  | zero =>
    by_cases hole : p = 0
    · simp [hole]
    · simp only [treeByte, if_neg hole]
      rw [same p (mem_treePath_self hole)]
  | succ h ih =>
    by_cases hole : p = 0
    · simp [hole]
    rw [treePath_succ hole] at same
    rw [treeByte_succ hole, treeByte_succ hole, addrAt_congr (same p List.mem_cons_self)]
    exact ih fun b member => same b (List.mem_cons_of_mem _ member)

theorem fileByte_congr (same : y < span h → ∀ b ∈ treePath m h p y, m' b = m b) :
    fileByte m' h p y = fileByte m h p y := by
  unfold fileByte
  split
  · exact treeByte_congr (same ‹_›)
  · rfl

/-- One level up, the bytes under the first entry are where they were. -/
theorem treeByte_first (present : p ≠ 0) (below : y < span h) :
    treeByte m (h + 1) p y = treeByte m h (addrAt m p 0) y := by
  rw [treeByte_succ present, Nat.div_eq_of_lt below, Nat.mod_eq_of_lt below]

theorem treePath_first (present : p ≠ 0) (below : y < span h) :
    treePath m (h + 1) p y = p :: treePath m h (addrAt m p 0) y := by
  rw [treePath_succ present, Nat.div_eq_of_lt below, Nat.mod_eq_of_lt below]

/-- Byte `y` under child `k` is byte `k * span h + y` of the whole. -/
theorem kid_byte {h k y : Nat} (below : y < span h) :
    (k * span h + y) / span h = k ∧ (k * span h + y) % span h = y := by
  constructor
  · rw [Nat.mul_comm, Nat.mul_add_div (span_pos h), Nat.div_eq_of_lt below, Nat.add_zero]
  · rw [Nat.mul_comm, Nat.mul_add_mod, Nat.mod_eq_of_lt below]

/-- The bytes of a file with `n` bytes, read through its root. -/
structure Reads (m : Mem) (R o n : Nat) (c : Nat → UInt8) : Prop where
  nbytes : rootNbytes m ⟨.bpram R, o⟩ = n
  bytes : ∀ y, y < n → rootByte m R o y = c y

theorem RootIs.rootByte {R o n : Nat} (root : RootIs m R o h p n) (some : n ≠ 0) (y : Nat) :
    rootByte m R o y = fileByte m h p y := by
  rw [Bpfs.rootByte, root.treeRootHeight, if_neg some, root.addr]

theorem RootIs.reads {R o n : Nat} (root : RootIs m R o h p n) {c : Nat → UInt8}
    (bytes : ∀ y, y < n → fileByte m h p y = c y) : Reads m R o n c := by
  refine ⟨root.nbytes, fun y below => ?_⟩
  rw [root.rootByte (by omega), bytes y below]

end Bpfs
