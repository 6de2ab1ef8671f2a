import Mathlib.Data.Int.Notation
import Mathlib.Data.Nat.Notation

set_option autoImplicit false

namespace Hcproxy

/-- A `Duration` is a number of nanoseconds, in 64 bits. -/
abbrev Duration := Int64

namespace Clock

/-- `t + d` for a reading `t` of `steady_clock`, in nanoseconds since its epoch. The sum wraps
around. -/
def add (t : ℕ) (d : Duration) : ℤ := (Int64.ofNat t + d).toInt

/-- The sum is a `Time`. -/
def Fits (t : ℕ) (d : Duration) : Prop := t + d.toInt ≤ 9223372036854775807

instance (t : ℕ) (d : Duration) : Decidable (Fits t d) := by
  unfold Fits
  infer_instance

variable {s t : ℕ} {d : Duration}

theorem add_eq_bmod (t : ℕ) (d : Duration) : add t d = (t + d.toInt).bmod 18446744073709551616 := by
  rw [add, Int64.toInt_add, Int64.toInt_ofNat']
  exact Int.bmod_add_bmod

theorem add_of_fits (fits : Fits t d) : add t d = t + d.toInt := by
  have := d.le_toInt
  unfold Fits at fits
  rw [add_eq_bmod, Int.bmod_eq_of_le] <;> omega

/-- No sum is later than it should be. -/
theorem add_le (t : ℕ) (d : Duration) : add t d ≤ t + d.toInt := by
  have := d.le_toInt
  rw [add_eq_bmod, Int.bmod_def]
  split <;> omega

/-- A sum that does not fit is in the past, and before the epoch. -/
theorem add_of_not_fits (reading : t ≤ 9223372036854775807) (large : ¬Fits t d) : add t d < 0 := by
  have := d.toInt_lt
  unfold Fits at large
  rw [add_eq_bmod, Int.bmod_def]
  split <;> omega

theorem Fits.earlier (fits : Fits t d) (before : s ≤ t) : Fits s d := by
  unfold Fits at fits ⊢
  omega

theorem lt_add (fits : Fits t d) (positive : 0 < d) : t < add t d := by
  have positive := Int64.lt_iff_toInt_lt.mp positive
  rw [add_of_fits fits]
  exact Int.lt_add_of_pos_right _ positive

theorem add_le_add (fits : Fits t d) (before : s ≤ t) : add s d ≤ add t d := by
  rw [add_of_fits fits, add_of_fits (fits.earlier before)]
  omega

/-- Any duration after the epoch is a `Time`. -/
theorem fits_zero (d : Duration) : Fits 0 d := by
  have := d.toInt_lt
  unfold Fits
  omega

end Clock

end Hcproxy
