import Mathlib.Tactic.Ring

/-!
# Addresses and page rounding

`crates/dlutos_mm/src/address/addr.rs`: virtual and physical addresses are machine words; here
they are naturals and an operation whose result would leave the 64-bit range is excluded by the
hypotheses of the statements about it.  `floor` and `ceil` round to page boundaries.
-/

namespace Dlutos

def PAGE_SIZE : ℕ := 4096

def PAGE_SIZE_BITS : ℕ := 12

def divCeil (a b : ℕ) : ℕ := if a % b = 0 then a / b else a / b + 1

namespace Addr

def floor (a : ℕ) : ℕ := a / PAGE_SIZE * PAGE_SIZE

def ceil (a : ℕ) : ℕ := divCeil a PAGE_SIZE * PAGE_SIZE

def IsPageAligned (a : ℕ) : Prop := a % PAGE_SIZE = 0

instance (a : ℕ) : Decidable (IsPageAligned a) := inferInstanceAs (Decidable (_ = _))

theorem floor_le (a : ℕ) : floor a ≤ a := Nat.div_mul_le_self a PAGE_SIZE

theorem le_ceil (a : ℕ) : a ≤ ceil a := by
  unfold ceil divCeil PAGE_SIZE
  split <;> omega

theorem ceil_lt_add (a : ℕ) : ceil a < a + PAGE_SIZE := by
  unfold ceil divCeil PAGE_SIZE
  split <;> omega

theorem ceil_mono {a b : ℕ} (h : a ≤ b) : ceil a ≤ ceil b := by
  unfold ceil divCeil PAGE_SIZE
  split <;> split <;> omega

theorem isPageAligned_zero : IsPageAligned 0 := Nat.zero_mod PAGE_SIZE

theorem isPageAligned_floor (a : ℕ) : IsPageAligned (floor a) := Nat.mul_mod_left _ _

theorem isPageAligned_ceil (a : ℕ) : IsPageAligned (ceil a) := Nat.mul_mod_left _ _

theorem floor_eq_self {a : ℕ} : floor a = a ↔ IsPageAligned a := by
  unfold floor IsPageAligned PAGE_SIZE
  omega

theorem ceil_eq_self {a : ℕ} (ha : IsPageAligned a) : ceil a = a := by
  have := le_ceil a
  have := ceil_lt_add a
  unfold IsPageAligned at ha
  unfold ceil PAGE_SIZE at *
  omega

theorem IsPageAligned.add {a b : ℕ} (ha : IsPageAligned a) (hb : IsPageAligned b) :
    IsPageAligned (a + b) := by
  unfold IsPageAligned PAGE_SIZE at *
  omega

theorem IsPageAligned.sub {a b : ℕ} (ha : IsPageAligned a) (hb : IsPageAligned b) :
    IsPageAligned (a - b) := by
  unfold IsPageAligned PAGE_SIZE at *
  omega

end Addr

end Dlutos
