import Bpfs.FileOps

/-! The copy that goes through one machine word (`atomic_memcpy`). The width of the word is
chosen from the length alone, while the word is found by rounding the address down. -/

namespace Bpfs

/-- The store that `ATOMIC_MEMCPY_X` makes, and how much of its local word it wrote to. -/
structure WordStore where
  start : Nat
  width : Nat
  data : Nat → UInt8
  /-- one past the last byte that `memcpy` writes, counted from the start of the local word -/
  localEnd : Nat

/-- The block after the store. -/
def WordStore.apply (w : WordStore) (block : Nat → UInt8) : Nat → UInt8 :=
  fun k => if w.start ≤ k ∧ k < w.start + w.width then w.data (k - w.start) else block k

/-- `ATOMIC_MEMCPY_X`, at offset `off` of a block. -/
def atomicMemcpyX (width : Nat) (block src : Nat → UInt8) (off n : Nat) : WordStore :=
  let start := off / width * width
  let target := off - start
  ⟨start, width, fun i => if target ≤ i ∧ i < target + n then src (i - target) else block (start + i), target + n⟩

/-- `atomic_memcpy`; nothing is stored when no branch takes the length. -/
def atomicMemcpy (block src : Nat → UInt8) (off n : Nat) : Option WordStore :=
  if n = 1 then some (atomicMemcpyX 1 block src off n)
  else if n = 2 then some (atomicMemcpyX 2 block src off n)
  else if n ≤ 4 then some (atomicMemcpyX 4 block src off n)
  else if n ≤ 8 then some (atomicMemcpyX 8 block src off n)
  else none

def plainMemcpy (block src : Nat → UInt8) (off n : Nat) : Nat → UInt8 :=
  fun k => if off ≤ k ∧ k < off + n then src (k - off) else block k

/-- The copy in `callback_write`. -/
def callbackWriteCopy (block src : Nat → UInt8) (off n : Nat) : Nat → UInt8 :=
  if canAtomicWrite off n then ((atomicMemcpy block src off n).map (·.apply block)).getD block
  else plainMemcpy block src off n

/-- The store is a copy of `n` bytes that stays within its local word and within the aligned
eight bytes around `off`. -/
structure WordStore.IsCopy (w : WordStore) (block src : Nat → UInt8) (off n : Nat) : Prop where
  copied : ∀ i, i < n → w.apply block (off + i) = src i
  others : ∀ k, k < off ∨ off + n ≤ k → w.apply block k = block k
  within : w.localEnd ≤ w.width
  aligned : off / 8 * 8 ≤ w.start ∧ w.start + w.width ≤ off / 8 * 8 + 8

/-- The width of the word for a copy of `n` bytes. -/
def copyWidth (n : Nat) : Nat := if n ≤ 2 then n else if n ≤ 4 then 4 else 8

theorem atomicMemcpy_eq {block src : Nat → UInt8} {off n : Nat} (some : 0 < n) (short : n ≤ 8) :
    atomicMemcpy block src off n = Option.some (atomicMemcpyX (copyWidth n) block src off n) := by
  unfold atomicMemcpy copyWidth
  by_cases one : n = 1
  · rw [if_pos one, if_pos (by omega), one]
  by_cases two : n = 2
  · rw [if_neg one, if_pos two, if_pos (by omega), two]
  rw [if_neg one, if_neg two, if_neg (show ¬n ≤ 2 by omega)]
  by_cases four : n ≤ 4
  · rw [if_pos four, if_pos four]
  · rw [if_neg four, if_neg four, if_pos short]

theorem copyWidth_cases {n : Nat} (some : 0 < n) (short : n ≤ 8) : n ≤ copyWidth n ∧
    (copyWidth n = 1 ∨ copyWidth n = 2 ∨ copyWidth n = 4 ∨ copyWidth n = 8) := by
  unfold copyWidth
  split
  · omega
  · split <;> omega

/-- The whole range is in the word that the rounding finds. -/
theorem atomicMemcpyX_apply {width off n : Nat} {block src : Nat → UInt8} (fits : off % width + n ≤ width) :
    (atomicMemcpyX width block src off n).apply block = plainMemcpy block src off n := by
  have parts := Nat.div_add_mod' off width
  funext k
  change (if off / width * width ≤ k ∧ k < off / width * width + width then
    (if off - off / width * width ≤ k - off / width * width ∧ k - off / width * width < off - off / width * width + n
      then src (k - off / width * width - (off - off / width * width))
      else block (off / width * width + (k - off / width * width))) else block k) =
    if off ≤ k ∧ k < off + n then src (k - off) else block k
  by_cases inside : off ≤ k ∧ k < off + n
  · rw [if_pos (by omega), if_pos (by omega), if_pos inside]
    congr 1
    omega
  · rw [if_neg inside]
    by_cases word : off / width * width ≤ k ∧ k < off / width * width + width
    · rw [if_pos word, if_neg (by omega)]
      congr 1
      omega
    · rw [if_neg word]

theorem atomicMemcpyX_aligned {width off n : Nat} {block src : Nat → UInt8}
    (widths : width = 1 ∨ width = 2 ∨ width = 4 ∨ width = 8) :
    off / 8 * 8 ≤ (atomicMemcpyX width block src off n).start ∧
      (atomicMemcpyX width block src off n).start + width ≤ off / 8 * 8 + 8 := by
  simp only [atomicMemcpyX]
  rcases widths with rfl | rfl | rfl | rfl <;> omega

/-- A copy that `can_atomic_write` admits is right exactly when the range lies in the word that
`atomic_memcpy` picks for its length. -/
theorem atomicMemcpy_isCopy_iff {block src : Nat → UInt8} {off n : Nat} (atomic : canAtomicWrite off n) :
    ∃ w, atomicMemcpy block src off n = some w ∧
      ((w.IsCopy block src off n ∧ callbackWriteCopy block src off n = plainMemcpy block src off n) ↔
        off % copyWidth n + n ≤ copyWidth n) := by
  have size : 0 < n ∧ n ≤ 8 := ⟨atomic.1, by have := atomic.2.1; unfold atomicSize at this; omega⟩
  have widths := copyWidth_cases size.1 size.2
  have branch : atomicMemcpy block src off n = _ := atomicMemcpy_eq size.1 size.2
  refine ⟨_, branch, ?_⟩
  constructor
  · rintro ⟨right, -⟩
    have inside := right.within
    simp only [atomicMemcpyX] at inside
    have parts := Nat.div_add_mod' off (copyWidth n)
    omega
  · intro fits
    have copy : (atomicMemcpyX (copyWidth n) block src off n).apply block = _ := atomicMemcpyX_apply fits
    refine ⟨⟨?_, ?_, ?_, atomicMemcpyX_aligned widths.2⟩, ?_⟩
    · intro i inside
      rw [copy, plainMemcpy, if_pos (by omega), Nat.add_sub_cancel_left]
    · intro k outside
      rw [copy, plainMemcpy, if_neg (by omega)]
    · have parts := Nat.div_add_mod' off (copyWidth n)
      simp only [atomicMemcpyX]
      omega
    · rw [callbackWriteCopy, if_pos atomic, branch, Option.map_some, Option.getD_some]
      exact copy

theorem atomicMemcpy_isCopy_iff_two : canAtomicWrite 2 2 ∧
    ∃ w, atomicMemcpy (fun _ => 0) (fun _ => 1) 2 2 = some w ∧
      ((w.IsCopy (fun _ => 0) (fun _ => 1) 2 2 ∧
        callbackWriteCopy (fun _ => 0) (fun _ => 1) 2 2 = plainMemcpy (fun _ => 0) (fun _ => 1) 2 2) ↔
        2 % copyWidth 2 + 2 ≤ copyWidth 2) :=
  ⟨by decide, atomicMemcpy_isCopy_iff (by decide)⟩

/-- Two bytes at offset 1: the second one is never written. -/
theorem atomicMemcpy_drops_byte : canAtomicWrite 1 2 ∧
    callbackWriteCopy (fun _ => 0) (fun _ => 1) 1 2 2 = 0 ∧ plainMemcpy (fun _ => 0) (fun _ => 1) 1 2 2 = 1 := by decide

end Bpfs
