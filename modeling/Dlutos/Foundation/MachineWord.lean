import Mathlib.Data.Nat.Bitwise
import Mathlib.Data.Nat.Log

/-!
# Bit operations of machine words

The operations of the standard library on 64-bit words that size computations use, on naturals:
`trailingZeros` counts the zero bits below the lowest set bit, and `nextPowerOfTwo` rounds up to a
power of two.  On powers of two they are inverse to each other.
-/

namespace MachineWord

def trailingZeros (n : ℕ) : ℕ := ((List.range 64).find? fun i => n.testBit i).getD 64

theorem pow_trailingZeros_dvd (n : ℕ) : 2 ^ trailingZeros n ∣ n := by
  have hdvd : ∀ i, (∀ j < i, n.testBit j = false) → 2 ^ i ∣ n := by
    intro i hi
    refine Nat.dvd_of_mod_eq_zero (Nat.eq_of_testBit_eq fun j => ?_)
    rw [Nat.testBit_mod_two_pow, Nat.zero_testBit]
    by_cases hj : j < i
    · rw [hi j hj, Bool.and_false]
    · rw [decide_eq_false hj, Bool.false_and]
  unfold trailingZeros
  cases hfind : (List.range 64).find? fun i => n.testBit i with
  | none =>
    rw [List.find?_range_eq_none] at hfind
    exact hdvd 64 fun j hj => by simpa using hfind j hj
  | some i =>
    rw [List.find?_range_eq_some] at hfind
    exact hdvd i fun j hj => by simpa using hfind.2.2 j hj

theorem trailingZeros_two_pow {k : ℕ} (hk : k < 64) : trailingZeros (2 ^ k) = k := by
  have hfind : (List.range 64).find? (fun i => (2 ^ k).testBit i) = some k := by
    rw [List.find?_range_eq_some]
    refine ⟨Nat.testBit_two_pow_self, List.mem_range.mpr hk, fun j hj => ?_⟩
    rw [Nat.testBit_two_pow_of_ne hj.ne', Bool.not_false]
  rw [trailingZeros, hfind, Option.getD_some]

def nextPowerOfTwo (n : ℕ) : ℕ := if n ≤ 1 then 1 else 2 ^ (Nat.log2 (n - 1) + 1)

theorem exists_nextPowerOfTwo_eq (n : ℕ) :
    ∃ k, nextPowerOfTwo n = 2 ^ k ∧ n ≤ 2 ^ k ∧ ∀ j, n ≤ 2 ^ j → k ≤ j := by
  unfold nextPowerOfTwo
  split_ifs with hn
  · exact ⟨0, rfl, hn, fun j _ => Nat.zero_le j⟩
  · have hne : n - 1 ≠ 0 := by omega
    refine ⟨Nat.log2 (n - 1) + 1, rfl, ?_, fun j hj => ?_⟩
    · have := Nat.lt_log2_self (n := n - 1)
      omega
    · have hlt : n - 1 < 2 ^ j := by omega
      exact (Nat.log2_lt hne).mpr hlt

theorem nextPowerOfTwo_two_pow (k : ℕ) : nextPowerOfTwo (2 ^ k) = 2 ^ k := by
  obtain ⟨j, hj, hle, hmin⟩ := exists_nextPowerOfTwo_eq (2 ^ k)
  have hkj : k ≤ j := (Nat.pow_le_pow_iff_right Nat.one_lt_two).mp hle
  rw [hj, le_antisymm (hmin k le_rfl) hkj]

end MachineWord
