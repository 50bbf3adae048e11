import Bpfs.BlockTree
import Bpfs.Crawler

/-! The numbers `crawl_indir` works with, read off a byte range of the whole file. A
crawl of the range from `lo` to `hi` in a file of `g` bytes visits the subtree of height
`h` that starts at leaf `i` with arguments that are all functions of these five. -/

namespace Bpfs
open Lib

/-- First byte of the subtree that starts at leaf `i`. -/
def base (i : Nat) : Nat := blockSize * i

/-- Where a crawl from `lo` on enters the subtree. -/
def enter (lo i : Nat) : Nat := max lo (base i)

/-- Where a crawl up to `hi` leaves it. -/
def leave (hi h i : Nat) : Nat := min hi (base i + span h)

/-- How many bytes of the subtree a file of `g` bytes makes valid. -/
def validIn (g h i : Nat) : Nat := min (g - base i) (span h)

/-- The first leaf of child `k`. -/
def kid (h i k : Nat) : Nat := i + k * 512 ^ h

theorem base_kid (h i k : Nat) : base (kid h i k) = base i + k * span h := start_kid i k h

theorem mul_span_le {h k : Nat} (small : k < 512) : k * span h + span h ≤ span (h + 1) := by
  rw [span_succ, ← Nat.succ_mul]
  exact Nat.mul_le_mul_right _ small

theorem treeMaxNblocks_eq {h : Nat} (low : h ≤ 6) : treeMaxNblocks h = 512 ^ h := by
  induction h with
  | zero => rfl
  | succ h ih =>
    have bound : 512 ^ (h + 1) ≤ 512 ^ 6 := Nat.pow_le_pow_right (by decide) low
    rw [treeMaxNblocks, ih (by omega), blocknosPerIndir, ← Nat.pow_succ]
    exact Nat.mod_eq_of_lt (lt_of_le_of_lt bound (by decide))

theorem nbytesOfBlocks_eq {h : Nat} (low : h ≤ 5) : nbytesOfBlocks (512 ^ h) = span h := by
  have bound : 512 ^ h * blockSize ≤ 512 ^ 5 * blockSize :=
    Nat.mul_le_mul_right _ (Nat.pow_le_pow_right (by decide) low)
  rw [nbytesOfBlocks, span, Nat.mul_comm blockSize]
  exact Nat.mod_eq_of_lt (lt_of_le_of_lt bound (by decide))

theorem share_validIn (g h i k : Nat) (small : k < 512) :
    share h (validIn g (h + 1) i) k = validIn g h (kid h i k) := by
  have room := mul_span_le (h := h) small
  simp only [share, validIn, base_kid]
  omega

theorem usub_eq {a b : Nat} (le : b ≤ a) (small : a < 2 ^ 64) : usub a b = a - b := by
  unfold usub
  omega

theorem span_lt {h : Nat} (low : h ≤ 5) : span h < 2 ^ 64 := by
  have bound : blockSize * 512 ^ h ≤ blockSize * 512 ^ 5 :=
    Nat.mul_le_mul_left _ (Nat.pow_le_pow_right (by decide) low)
  exact lt_of_le_of_lt bound (by decide)

/-- `child_valid` is the part of the valid bytes that lies under the child. -/
theorem childValid_eq (c : IndirCrawl) (pos : 0 < c.childMaxNbytes) (k : Nat) :
    c.childValid k = min (c.valid - k * c.childMaxNbytes) c.childMaxNbytes := by
  have last := Nat.lt_div_mul_add (a := c.valid + c.childMaxNbytes - 1) pos
  have lower := Nat.div_mul_le_self (c.valid + c.childMaxNbytes - 1) c.childMaxNbytes
  unfold IndirCrawl.childValid IndirCrawl.validno
  rw [Nat.add_mul, Nat.one_mul]
  split
  · next inside =>
    have step : k * c.childMaxNbytes + c.childMaxNbytes ≤
        (c.valid + c.childMaxNbytes - 1) / c.childMaxNbytes * c.childMaxNbytes := by
      rw [← Nat.succ_mul]
      exact Nat.mul_le_mul_right _ inside
    split
    · omega
    · have quotient : c.valid / c.childMaxNbytes = k := by
        apply Nat.div_eq_of_lt_le
        · omega
        · rw [Nat.succ_mul]
          omega
      have remainder := Nat.div_add_mod c.valid c.childMaxNbytes
      rw [quotient, Nat.mul_comm] at remainder
      omega
  · next outside =>
    have step : (c.valid + c.childMaxNbytes - 1) / c.childMaxNbytes * c.childMaxNbytes ≤
        k * c.childMaxNbytes := Nat.mul_le_mul_right _ (by omega)
    omega

/-- A crawl of the bytes from `lo` to `hi` of a file of `g` bytes comes to an indirect
block of height `h + 1` that starts at leaf `i`. -/
structure Visit where
  g : Nat
  lo : Nat
  hi : Nat
  h : Nat
  i : Nat
  low : h + 1 ≤ 6
  bounded : hi < 2 ^ 64
  meets : enter lo i < leave hi (h + 1) i

namespace Visit

variable (w : Visit)

/-- What `crawl_indir` computes before its loop. -/
def crawl (p : Nat) (commit : Commit) : IndirCrawl :=
  ⟨p, enter w.lo w.i / blockSize, enter w.lo w.i - base w.i, leave w.hi (w.h + 1) w.i - enter w.lo w.i,
    validIn w.g (w.h + 1) w.i, commit, 512 ^ w.h, span w.h, decide (p = 0)⟩

def firstno : Nat := (enter w.lo w.i - base w.i) / span w.h

def lastno : Nat := (leave w.hi (w.h + 1) w.i - base w.i - 1) / span w.h

/-- First leaf of child `k`. -/
def kid (k : Nat) : Nat := Bpfs.kid w.h w.i k

theorem base_kid (k : Nat) : base (w.kid k) = base w.i + k * span w.h := Bpfs.base_kid _ _ _

theorem base_le_enter : base w.i ≤ enter w.lo w.i := Nat.le_max_right _ _

theorem leave_le : leave w.hi (w.h + 1) w.i ≤ base w.i + span (w.h + 1) := Nat.min_le_right _ _

theorem crawl_firstno (p : Nat) (commit : Commit) : (w.crawl p commit).firstno = w.firstno := rfl

theorem crawl_lastno (p : Nat) (commit : Commit) : (w.crawl p commit).lastno = w.lastno := by
  have below := w.base_le_enter
  have small : leave w.hi (w.h + 1) w.i < 2 ^ 64 := lt_of_le_of_lt (Nat.min_le_left _ _) w.bounded
  have meets := w.meets
  simp only [IndirCrawl.lastno, crawl, lastno]
  rw [usub_eq (by omega) (by omega)]
  congr 1
  omega

theorem firstno_bounds : base w.i + w.firstno * span w.h ≤ enter w.lo w.i ∧
    enter w.lo w.i < base w.i + w.firstno * span w.h + span w.h := by
  have below := w.base_le_enter
  have lower := Nat.div_mul_le_self (enter w.lo w.i - base w.i) (span w.h)
  have upper := Nat.lt_div_mul_add (a := enter w.lo w.i - base w.i) (span_pos w.h)
  unfold firstno
  omega

theorem lastno_bounds : base w.i + w.lastno * span w.h < leave w.hi (w.h + 1) w.i ∧
    leave w.hi (w.h + 1) w.i ≤ base w.i + w.lastno * span w.h + span w.h := by
  have below := w.base_le_enter
  have meets := w.meets
  have lower := Nat.div_mul_le_self (leave w.hi (w.h + 1) w.i - base w.i - 1) (span w.h)
  have upper := Nat.lt_div_mul_add (a := leave w.hi (w.h + 1) w.i - base w.i - 1) (span_pos w.h)
  unfold lastno
  omega

theorem mul_lt {j k : Nat} (less : j < k) : j * span w.h + span w.h ≤ k * span w.h := by
  rw [← Nat.succ_mul]
  exact Nat.mul_le_mul_right _ less

theorem lastno_lt : w.lastno < 512 := by
  have above := w.leave_le
  have bound := w.lastno_bounds.1
  by_contra big
  have : 512 * span w.h ≤ w.lastno * span w.h := Nat.mul_le_mul_right _ (by omega)
  rw [span_succ] at above
  omega

theorem firstno_le_lastno : w.firstno ≤ w.lastno := by
  have first := w.firstno_bounds
  have last := w.lastno_bounds
  have meets := w.meets
  by_contra big
  have := w.mul_lt (show w.lastno < w.firstno by omega)
  omega

/-- The children the loop visits are those that the range reaches into. -/
theorem visits_iff {k : Nat} :
    (w.firstno ≤ k ∧ k ≤ w.lastno) ↔ (k < 512 ∧ enter w.lo (w.kid k) < leave w.hi w.h (w.kid k)) := by
  have first := w.firstno_bounds
  have last := w.lastno_bounds
  have meets := w.meets
  have span := w.leave_le
  have size := span_succ w.h
  have small := w.lastno_lt
  have pos := span_pos w.h
  simp only [enter, leave, w.base_kid] at *
  constructor
  · rintro ⟨low, high⟩
    have lower := Nat.mul_le_mul_right (Bpfs.span w.h) low
    have upper := Nat.mul_le_mul_right (Bpfs.span w.h) high
    omega
  · rintro ⟨inside, reach⟩
    have room := mul_span_le (h := w.h) inside
    constructor
    · by_contra early
      have := w.mul_lt (show k < w.firstno by omega)
      omega
    · by_contra late
      have := w.mul_lt (show w.lastno < k by omega)
      omega

section Child

variable {k : Nat} (visited : w.firstno ≤ k ∧ k ≤ w.lastno)

include visited

theorem visited_lt : k < 512 := (w.visits_iff.mp visited).1

theorem visited_meets : enter w.lo (w.kid k) < leave w.hi w.h (w.kid k) := (w.visits_iff.mp visited).2

theorem crawl_childOff (p : Nat) (commit : Commit) :
    (w.crawl p commit).childOff k = enter w.lo (w.kid k) - base (w.kid k) := by
  have first := w.firstno_bounds
  have below := w.base_le_enter
  change (if k = w.firstno then (enter w.lo w.i - base w.i) % span w.h else 0) = _
  by_cases start : k = w.firstno
  · have split := Nat.div_add_mod (enter w.lo w.i - base w.i) (span w.h)
    rw [if_pos start, start]
    rw [Nat.mul_comm] at split
    change w.firstno * span w.h + _ = _ at split
    simp only [enter, w.base_kid] at *
    omega
  · have later := w.mul_lt (show w.firstno < k by omega)
    rw [if_neg start]
    simp only [enter, w.base_kid] at *
    omega

theorem crawl_childSize (p : Nat) (commit : Commit) :
    (w.crawl p commit).childSize k = leave w.hi w.h (w.kid k) - enter w.lo (w.kid k) := by
  have last := w.lastno_bounds
  have below := w.base_le_enter
  have meets := w.meets
  have room := mul_span_le (h := w.h) (w.visited_lt visited)
  have total : (w.crawl p commit).off + (w.crawl p commit).size = leave w.hi (w.h + 1) w.i - base w.i := by
    simp only [crawl]
    omega
  have low : base (w.kid k) ≤ enter w.lo (w.kid k) := Nat.le_max_right _ _
  simp only [IndirCrawl.childSize, crawl_lastno, w.crawl_childOff visited, total]
  change (if k = w.lastno then leave w.hi (w.h + 1) w.i - base w.i -
    (k * span w.h + (enter w.lo (w.kid k) - base (w.kid k)))
    else span w.h - (enter w.lo (w.kid k) - base (w.kid k))) = _
  by_cases final : k = w.lastno
  · rw [if_pos final]
    subst final
    simp only [leave, w.base_kid] at *
    omega
  · have earlier := w.mul_lt (show k < w.lastno by omega)
    rw [if_neg final]
    simp only [leave, w.base_kid] at *
    omega

theorem crawl_childBlockoff (p : Nat) (commit : Commit) :
    (w.crawl p commit).childBlockoff k = enter w.lo (w.kid k) / blockSize := by
  have first := w.firstno_bounds
  have below := w.base_le_enter
  change (if k = w.firstno then enter w.lo w.i / blockSize
    else enter w.lo w.i / blockSize + (k - w.firstno) * 512 ^ w.h -
      (enter w.lo w.i - base w.i) % span w.h / blockSize) = _
  by_cases start : k = w.firstno
  · rw [if_pos start, start]
    congr 1
    simp only [enter, w.base_kid] at *
    omega
  · have later := w.mul_lt (show w.firstno < k by omega)
    have split := Nat.div_add_mod (enter w.lo w.i - base w.i) (span w.h)
    change span w.h * w.firstno + _ = _ at split
    rw [if_neg start]
    have reach : enter w.lo (w.kid k) = base (w.kid k) := by
      simp only [enter, w.base_kid] at *
      omega
    have value : enter w.lo w.i / blockSize =
        w.i + w.firstno * 512 ^ w.h + (enter w.lo w.i - base w.i) % span w.h / blockSize := by
      have whole : enter w.lo w.i =
          (enter w.lo w.i - base w.i) % span w.h + blockSize * (w.i + w.firstno * 512 ^ w.h) := by
        rw [start_kid, Nat.mul_comm w.firstno]
        simp only [base] at *
        omega
      conv_lhs => rw [whole]
      rw [Nat.add_mul_div_left _ _ (by decide : 0 < blockSize)]
      omega
    have index : base (w.kid k) / blockSize = w.kid k := Nat.mul_div_cancel_left _ (by decide)
    rw [value, reach, index, kid, Bpfs.kid]
    have split : k * 512 ^ w.h = w.firstno * 512 ^ w.h + (k - w.firstno) * 512 ^ w.h := by
      rw [← Nat.add_mul]
      congr 1
      omega
    omega

end Child

theorem crawl_childValid {k : Nat} (small : k < 512) (p : Nat) (commit : Commit) :
    (w.crawl p commit).childValid k = validIn w.g w.h (w.kid k) := by
  rw [kid, ← share_validIn _ _ _ _ small, childValid_eq _ (span_pos w.h)]
  rfl

theorem crawl_onlyInvalid (p : Nat) (commit : Commit) :
    (w.crawl p commit).onlyInvalid ↔ w.g ≤ enter w.lo w.i := by
  have meets := w.meets
  have above := w.leave_le
  have below := w.base_le_enter
  simp only [IndirCrawl.onlyInvalid, crawl, validIn]
  omega

end Visit

end Bpfs
