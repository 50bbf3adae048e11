import Mathlib.Algebra.Ring.Nat
import Mathlib.Data.Finset.Card

/-! Counting the clear bits of a bit array, and what setting, clearing and appending bits
does to the count. -/

namespace Bpfs.Lib

/-- How many of the first `n` bits are clear. -/
def clearBits (bits : Nat → Bool) (n : Nat) : Nat := ((Finset.range n).filter fun k => bits k = false).card

variable {bits bits' : Nat → Bool} {n m no : Nat}

theorem clearBits_le : clearBits bits n ≤ n :=
  (Finset.card_filter_le _ _).trans (Finset.card_range n).le

theorem clearBits_congr (same : ∀ k, k < n → bits' k = bits k) : clearBits bits' n = clearBits bits n := by
  unfold clearBits
  congr 1
  refine Finset.filter_congr (fun k member => ?_)
  rw [same k (Finset.mem_range.mp member)]

theorem clearBits_set (inside : no < n) (clear : bits no = false) :
    clearBits (fun k => decide (k = no) || bits k) n + 1 = clearBits bits n := by
  have member : no ∈ (Finset.range n).filter fun k => bits k = false :=
    Finset.mem_filter.mpr ⟨Finset.mem_range.mpr inside, clear⟩
  have rest : ((Finset.range n).filter fun k => (decide (k = no) || bits k) = false) =
      ((Finset.range n).filter fun k => bits k = false).erase no := by
    ext k
    simp only [Finset.mem_filter, Finset.mem_erase, Bool.or_eq_false_iff, decide_eq_false_iff_not]
    exact ⟨fun h => ⟨h.2.1, h.1, h.2.2⟩, fun h => ⟨h.2.1, h.1, h.2.2⟩⟩
  rw [clearBits, clearBits, rest, Finset.card_erase_add_one member]

theorem clearBits_clear (inside : no < n) (set : bits no = true) :
    clearBits (fun k => decide (k ≠ no) && bits k) n = clearBits bits n + 1 := by
  have back : clearBits (fun k => decide (k = no) || (decide (k ≠ no) && bits k)) n + 1 =
      clearBits (fun k => decide (k ≠ no) && bits k) n := clearBits_set inside (by simp)
  rw [← back]
  congr 1
  refine clearBits_congr (fun k _ => ?_)
  by_cases same : k = no
  · simp [same, set]
  · simp [same]

theorem clearBits_clearAll {l : List Nat} (nodup : l.Nodup) (inside : ∀ no ∈ l, no < n ∧ bits no = true) :
    clearBits (fun k => decide (k ∉ l) && bits k) n = clearBits bits n + l.length := by
  induction l generalizing bits with
  | nil => exact clearBits_congr (fun k _ => by simp)
  | cons no l ih =>
    obtain ⟨new, rest⟩ := List.nodup_cons.mp nodup
    obtain ⟨here, set⟩ := inside no (List.mem_cons_self ..)
    have later : ∀ k ∈ l, k < n ∧ (decide (k ≠ no) && bits k) = true := by
      intro k member
      obtain ⟨below, marked⟩ := inside k (List.mem_cons_of_mem _ member)
      have other : k ≠ no := fun same => new (same ▸ member)
      exact ⟨below, by simp [other, marked]⟩
    have step := ih rest later
    rw [clearBits_clear here set] at step
    rw [List.length_cons, Nat.add_comm l.length, ← Nat.add_assoc, ← step]
    refine clearBits_congr (fun k _ => ?_)
    simp [Bool.and_left_comm, Bool.and_assoc]

theorem clearBits_extend (below : n ≤ m) (clear : ∀ k, n ≤ k → k < m → bits k = false) :
    clearBits bits m = clearBits bits n + (m - n) := by
  induction m, below using Nat.le_induction with
  | base => simp
  | succ m below ih =>
    have step : clearBits bits (m + 1) = clearBits bits m + 1 := by
      unfold clearBits
      rw [Finset.range_add_one, Finset.filter_insert, if_pos (clear m below (Nat.lt_succ_self m)),
        Finset.card_insert_of_notMem (by simp)]
    rw [step, ih (fun k low high => clear k low (by omega))]
    omega

end Bpfs.Lib
