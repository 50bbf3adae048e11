import Mathlib.Algebra.Ring.Nat
import Mathlib.Data.Set.Basic

/-! Little-endian words in byte-addressed storage. -/

namespace Bpfs.Lib

/-- The number spelled by the bytes `f 0 .. f (n - 1)`, lowest byte first. -/
def leValue (f : Nat → UInt8) : Nat → Nat
  | 0 => 0
  | n + 1 => (f 0).toNat + 256 * leValue (fun i => f (i + 1)) n

/-- Byte `i` of the number `v`. -/
def leByte (v i : Nat) : UInt8 := UInt8.ofNat (v / 256 ^ i)

theorem leValue_lt (f : Nat → UInt8) (n : Nat) : leValue f n < 256 ^ n := by
  induction n generalizing f with
  | zero => simp [leValue]
  | succ n ih =>
    have low := (f 0).toNat_lt
    have high := ih (fun i => f (i + 1))
    simp only [leValue, Nat.pow_succ]
    omega

theorem leValue_congr {f g : Nat → UInt8} {n : Nat} (same : ∀ i, i < n → f i = g i) :
    leValue f n = leValue g n := by
  induction n generalizing f g with
  | zero => rfl
  | succ n ih =>
    simp only [leValue]
    rw [same 0 (by omega), ih (fun i small => same (i + 1) (by omega))]

theorem leValue_zero {f : Nat → UInt8} {n : Nat} (zero : ∀ i, i < n → f i = 0) :
    leValue f n = 0 := by
  induction n generalizing f with
  | zero => rfl
  | succ n ih =>
    simp only [leValue]
    rw [zero 0 (by omega), ih (fun i small => zero (i + 1) (by omega))]
    rfl

theorem leValue_leByte (v n : Nat) : leValue (leByte v) n = v % 256 ^ n := by
  induction n generalizing v with
  | zero => simp [leValue, Nat.mod_one]
  | succ n ih =>
    have shift : (fun i => leByte v (i + 1)) = leByte (v / 256) := by
      funext i
      simp only [leByte]
      rw [Nat.div_div_eq_div_mul, Nat.pow_succ, Nat.mul_comm]
    have low : (leByte v 0).toNat = v % 256 := by simp [leByte]
    simp only [leValue, shift, ih, low]
    rw [Nat.pow_succ, Nat.mul_comm (256 ^ n) 256, Nat.mod_mul]

theorem leValue_testBit (f : Nat → UInt8) (n j : Nat) (small : j < 8 * n) :
    (leValue f n).testBit j = (f (j / 8)).toNat.testBit (j % 8) := by
  induction n generalizing f j with
  | zero => omega
  | succ n ih =>
    have low := (f 0).toNat_lt
    have split : leValue f (n + 1) = 2 ^ 8 * leValue (fun i => f (i + 1)) n + (f 0).toNat := by
      simp only [leValue]; omega
    rw [split, Nat.testBit_two_pow_mul_add _ low]
    by_cases first : j < 8
    · rw [if_pos first, Nat.div_eq_of_lt first, Nat.mod_eq_of_lt first]
    · rw [if_neg first, ih _ _ (by omega)]
      have next : (j - 8) / 8 + 1 = j / 8 := by omega
      have same : (j - 8) % 8 = j % 8 := by omega
      simp only [next, same]
end Bpfs.Lib
