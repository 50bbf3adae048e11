import Bpfs.BitmapTransaction
import Mathlib.Data.Nat.Find

/-! The debug loop of `bitmap_resize`. It is to look at the words that a smaller size cuts
off, but it takes the index of a byte for the index of a word. -/

namespace Bpfs
open Lib

namespace Bitmap

variable {bm bm' start : Bitmap} {new n i : Nat}

/-- The bytes at which the debug loop reads words: it stops at the first one that is not zero. -/
def shrinkReads (bm : Bitmap) : Nat → Nat → List Nat
  | 0, _ => []
  | n + 1, i => 8 * (i / 8) :: if bm.word (8 * (i / 8)) = 0 then shrinkReads bm n (i + scanBits) else []

/-- The number of rounds of the debug loop. -/
def rounds (bm : Bitmap) (new : Nat) : Nat := (bm.ntotal - new + scanBits - 1) / scanBits

/-- What the loop is for: it reads initialised words only and passes if the bits that are cut off are clear. -/
structure ShrinkRight (bm : Bitmap) (new : Nat) : Prop where
  inside : ∀ k ∈ bm.shrinkReads (bm.rounds new) new, k + 8 ≤ bm.ntotal / 8
  passes : bm.shrinkCheck (bm.rounds new) new = true ↔ ∀ k, new ≤ k → k < bm.ntotal → bm.bit k = false

theorem word_eq_zero : bm.word i = 0 ↔ ∀ j, j < 64 → bm.bit (8 * i + j) = false := by
  constructor
  · intro zero j small
    rw [← word_testBit bm i j small, zero, Nat.zero_testBit]
  · intro clear
    apply Nat.eq_of_testBit_eq
    intro j
    rw [Nat.zero_testBit]
    by_cases small : j < 64
    · rw [word_testBit bm i j small, clear j small]
    · have bound : bm.word i < 2 ^ j :=
        lt_of_lt_of_le (leValue_lt _ 8) (Nat.pow_le_pow_right (n := 2) (by decide) (by omega : 64 ≤ j))
      exact Nat.testBit_lt_two_pow bound

theorem shrinkCheck_iff (aligned : i % 8 = 0) :
    bm.shrinkCheck n i = true ↔ ∀ k, k < n → bm.word (i + 64 * k) = 0 := by
  induction n generalizing i with
  | zero => simp [shrinkCheck]
  | succ n ih =>
    have byte : 8 * (i / 8) = i := by omega
    simp only [shrinkCheck, Bool.and_eq_true, decide_eq_true_eq, byte, scanBits]
    rw [ih (by omega)]
    constructor
    · rintro ⟨first, rest⟩ k below
      cases k with
      | zero => exact first
      | succ k =>
        have next := rest k (by omega)
        rw [show i + 64 * (k + 1) = i + 64 + 64 * k by omega]
        exact next
    · intro all
      refine ⟨all 0 (by omega), fun k below => ?_⟩
      rw [show i + 64 + 64 * k = i + 64 * (k + 1) by omega]
      exact all (k + 1) (by omega)

theorem mem_shrinkReads (aligned : i % 8 = 0) {r : Nat} :
    r ∈ bm.shrinkReads n i ↔ ∃ k, k < n ∧ r = i + 64 * k ∧ ∀ j, j < k → bm.word (i + 64 * j) = 0 := by
  induction n generalizing i with
  | zero => simp [shrinkReads]
  | succ n ih =>
    have byte : 8 * (i / 8) = i := by omega
    have next : ∀ k, i + 64 + 64 * k = i + 64 * (k + 1) := fun k => by omega
    simp only [shrinkReads, List.mem_cons, byte, scanBits]
    constructor
    · rintro (here | later)
      · exact ⟨0, by omega, by omega, fun j below => by omega⟩
      · split at later
        · next zero =>
          obtain ⟨k, below, place, before⟩ := (ih (by omega)).mp later
          refine ⟨k + 1, by omega, by omega, fun j small => ?_⟩
          cases j with
          | zero => exact zero
          | succ j => exact next j ▸ before j (by omega)
        · cases later
    · rintro ⟨k, below, place, before⟩
      cases k with
      | zero => exact Or.inl (by omega)
      | succ k =>
        have zero : bm.word i = 0 := before 0 (by omega)
        rw [if_pos zero]
        exact Or.inr ((ih (by omega)).mpr ⟨k, by omega, by omega, fun j small => next j ▸ before (j + 1) (by omega)⟩)

/-- A word is not zero, so a bit behind its start is set. -/
theorem bit_of_word (nonzero : bm.word i ≠ 0) : ∃ j, j < 64 ∧ bm.bit (8 * i + j) = true := by
  by_contra none
  refine nonzero (word_eq_zero.mpr fun j small => ?_)
  cases set : bm.bit (8 * i + j) with
  | false => rfl
  | true => exact absurd ⟨j, small, set⟩ none

/-- The loop is right only if it has one word to look at, or if it meets a set bit before it
comes to the end of the bitmap. -/
theorem shrinkRight_iff (aligned : bm.ntotal % 64 = 0) (aligned' : new % 64 = 0) (less : new < bm.ntotal) :
    bm.ShrinkRight new ↔ bm.ntotal = 64 ∨ ∃ k, new + 64 * k + 8 ≤ bm.ntotal / 8 ∧ bm.word (new + 64 * k) ≠ 0 := by
  have rounds : new + 64 * bm.rounds new = bm.ntotal := by
    simp only [Bitmap.rounds, scanBits]
    omega
  have start : new % 8 = 0 := by omega
  constructor
  · rintro ⟨inside, -⟩
    by_cases zero : ∀ k, k < bm.rounds new → bm.word (new + 64 * k) = 0
    · -- the last round reads far behind the bitmap
      have last := inside (new + 64 * (bm.rounds new - 1)) ((mem_shrinkReads start).mpr
        ⟨bm.rounds new - 1, by omega, rfl, fun j small => zero j (by omega)⟩)
      exact Or.inl (by omega)
    · have found : ∃ k, k < bm.rounds new ∧ bm.word (new + 64 * k) ≠ 0 := by
        simpa only [not_forall, exists_prop] using zero
      classical
      obtain ⟨below, nonzero⟩ := Nat.find_spec found
      have read := inside (new + 64 * Nat.find found) ((mem_shrinkReads start).mpr
        ⟨Nat.find found, below, rfl, fun j small => ?_⟩)
      · exact Or.inr ⟨_, read, nonzero⟩
      · by_contra other
        exact Nat.find_min found small ⟨by omega, other⟩
  · rintro (single | ⟨k, inside, nonzero⟩)
    · have none : new = 0 := by omega
      have one : bm.rounds new = 1 := by omega
      refine ⟨fun r read => ?_, ?_⟩
      · obtain ⟨k, below, place, -⟩ := (mem_shrinkReads start).mp read
        omega
      · rw [shrinkCheck_iff start, one, none, single]
        constructor
        · intro zero k _ small
          have clear := word_eq_zero.mp (zero 0 (by decide)) k small
          simpa using clear
        · intro clear k small
          have first : k = 0 := by omega
          exact word_eq_zero.mpr fun j below => clear _ (Nat.zero_le _) (by omega)
    · refine ⟨fun r read => ?_, ?_⟩
      · obtain ⟨l, -, place, before⟩ := (mem_shrinkReads start).mp read
        have early : l ≤ k := by
          by_contra late
          exact nonzero (before k (by omega))
        omega
      · -- both sides fail
        obtain ⟨j, small, set⟩ := bit_of_word nonzero
        rw [shrinkCheck_iff start]
        constructor
        · intro zero
          exact absurd (zero k (by omega)) nonzero
        · intro clear
          rw [clear (8 * (new + 64 * k) + j) (by omega) (by omega)] at set
          cases set

/-- With nothing staged, a smaller size is taken just when the loop passes. -/
theorem resize_shrinks (aligned : bm.ntotal % 64 = 0) (aligned' : new % 64 = 0) (less : new < bm.ntotal)
    (allocs : bm.allocs = []) (frees : bm.frees = []) :
    (∃ bm', bm.resize new = some bm') ↔ bm.shrinkCheck (bm.rounds new) new = true := by
  rw [resize, resizeWith, if_neg (Nat.ne_of_gt less), if_neg (Nat.not_lt_of_gt less)]
  constructor
  · rintro ⟨bm', done⟩
    split at done
    · next holds => exact holds.2.2.1 rfl
    · cases done
  · intro passes
    rw [if_pos ⟨aligned', aligned, fun _ => passes, allocs, frees⟩]
    exact ⟨_, rfl⟩

/-- In a transaction, the bits in the part that was added are those staged. -/
theorem Underway.added (way : Underway start bm) (grown : bm.prevNtotal ≠ 0) {k : Nat} (high : bm.prevNtotal ≤ k)
    (inside : k < bm.ntotal) : bm.without bm.allocs k = false := by
  have old : start.ntotal ≤ k := by
    by_cases empty : start.ntotal = 0
    · omega
    · have record := way.recorded empty
      rw [if_neg grown] at record
      omega
  have none : start.before k = false := by simp [before, Nat.not_lt.mpr old]
  rw [without, way.bits k inside, none]
  by_cases member : k ∈ bm.allocs <;> simp [member]

/-- An abort goes through if the words that the loop reads behind the bitmap happen to be zero. -/
theorem Underway.abort_iff (way : Underway start bm) : (∃ bm', bm.abort = some bm') ↔ bm.prevNtotal = 0 ∨
    ∀ i, bm.prevNtotal + 64 * i < bm.ntotal → bm.ntotal / 8 ≤ bm.prevNtotal + 64 * i →
      bm.word (bm.prevNtotal + 64 * i) = 0 := by
  have marked := way.allocs
  obtain ⟨mid, ⟨bits, -, allocs, frees, total, -⟩, ends⟩ := abortWith_eq marked.1 marked.2 way.room
  have known := way.prev
  have aligned := way.aligned
  rw [Bitmap.abort, ends]
  by_cases grown : bm.prevNtotal ≠ 0 ∧ bm.ntotal ≠ bm.prevNtotal
  · have less : bm.prevNtotal < mid.ntotal := by omega
    have outer : (∃ bm', (mid.resizeWith true bm.prevNtotal).bind (fun b => some { b with prevNtotal := 0 }) = some bm') ↔
        ∃ bm', mid.resize bm.prevNtotal = some bm' := by
      rw [resize]
      cases mid.resizeWith true bm.prevNtotal <;> simp
    have rounds : bm.prevNtotal + 64 * mid.rounds bm.prevNtotal = bm.ntotal := by
      simp only [Bitmap.rounds, scanBits]
      omega
    rw [if_pos grown, outer, resize_shrinks (by omega) known.1 less allocs frees, shrinkCheck_iff (by omega),
      or_iff_right grown.1]
    -- inside the bitmap the words are zero once the staged bits are clear; behind it they are as they were
    have behind : ∀ i, bm.ntotal / 8 ≤ i → (mid.word i = 0 ↔ bm.word i = 0) := by
      intro i far
      rw [word_eq_zero, word_eq_zero]
      refine forall_congr' fun j => forall_congr' fun small => ?_
      have out : 8 * i + j ∉ bm.allocs := fun member => by
        have bound := (marked.2 _ member).1
        omega
      rw [bits, without, decide_eq_true out, Bool.true_and]
    constructor
    · intro zero i below far
      exact (behind _ far).mp (zero i (by omega))
    · intro zero i below
      by_cases far : bm.ntotal / 8 ≤ bm.prevNtotal + 64 * i
      · exact (behind _ far).mpr (zero i (by omega) far)
      · refine word_eq_zero.mpr fun j small => ?_
        rw [bits]
        exact way.added grown.1 (by omega) (by omega)
  · rw [if_neg grown]
    refine iff_of_true ⟨_, rfl⟩ ?_
    by_cases none : bm.prevNtotal = 0
    · exact Or.inl none
    · exact Or.inr fun i below => by omega

/-- The loop is right only in small or lucky cases, and an abort after a growth depends on
what lies behind the bitmap. -/
theorem shrink_check_iff (bm : Bitmap) (aligned : bm.ntotal % 64 = 0) :
    (∀ new, new % 64 = 0 → new < bm.ntotal → (bm.ShrinkRight new ↔
      bm.ntotal = 64 ∨ ∃ k, new + 64 * k + 8 ≤ bm.ntotal / 8 ∧ bm.word (new + 64 * k) ≠ 0)) ∧
    (∀ start ops, Idle start → (∀ op ∈ ops, op.Within ∧ op.Aligned) → AllAllowed true start ops →
      run true ops start = some bm → ((∃ bm', bm.abort = some bm') ↔ bm.prevNtotal = 0 ∨
        ∀ i, bm.prevNtotal + 64 * i < bm.ntotal → bm.ntotal / 8 ≤ bm.prevNtotal + 64 * i →
          bm.word (bm.prevNtotal + 64 * i) = 0)) :=
  ⟨fun _ aligned' less => shrinkRight_iff aligned aligned' less,
    fun _ _ idle within allowed done => (idle.underway.run within allowed done).abort_iff⟩

theorem shrink_check_iff_zeroes : (fresh (fun _ => 0) 128).ntotal % 64 = 0 ∧
    ((fresh (fun _ => 0) 128).ShrinkRight 64 ↔ (fresh (fun _ => 0) 128).ntotal = 64 ∨
      ∃ k, 64 + 64 * k + 8 ≤ (fresh (fun _ => 0) 128).ntotal / 8 ∧ (fresh (fun _ => 0) 128).word (64 + 64 * k) ≠ 0) :=
  ⟨rfl, (shrink_check_iff (fresh (fun _ => 0) 128) rfl).1 64 rfl (by decide)⟩

/-- A bitmap of 128 clear bits in memory that is not zero: the loop reads 64 bytes behind the start of the 16
that it has, and the abort of a growth from 64 bits fails. -/
theorem shrink_reads_memory : (fresh (fun _ => 1) 128).shrinkReads 1 64 = [64] ∧
    (fresh (fun _ => 1) 128).shrinkCheck 1 64 = false ∧
    ((run true [.grow 128] (fresh (fun _ => 1) 64)).map fun bm => bm.abort.isSome) = some false := by
  decide +kernel

end Bitmap

end Bpfs
