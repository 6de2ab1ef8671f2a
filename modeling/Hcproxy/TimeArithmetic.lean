import Mathlib.Data.Int.Notation
import Mathlib.Logic.Basic
import Hcproxy.Clock

set_option autoImplicit false

namespace Hcproxy.Machine

/-- A `Duration` that an option may have. It counts nanoseconds. -/
structure Duration where
  count : Int64
  positive : 0 < count

/-- A `Time`: a reading of `steady_clock`, which starts at its epoch. -/
structure Time where
  count : Int64
  since : 0 ≤ count

/-- A duration over the integers. -/
def Duration.ns (d : Duration) : ℤ := d.count.toInt

/-- A time over the integers. -/
def Time.ns (t : Time) : ℤ := t.count.toInt

/-- `t + d`, in 64 bits. -/
def Time.add (t : Time) (d : Duration) : Int64 := t.count + d.count

/-- `deadline_`, as `Add` and `Refresh` set it. -/
def deadline (now : Time) (timeout : Duration) : Int64 := now.add timeout

/-- Whether `Loop` calls `OnTimeout` for the first handler. -/
def expired (deadline : Int64) (now : Time) : Bool := !(deadline > now.count)

/-- `std::chrono::ceil<milliseconds>`. -/
def ceilMs (d : Int64) : Int64 :=
  let ms := d / 1000000
  if ms * 1000000 < d then ms + 1 else ms

/-- The last argument of `epoll_wait`. `std::max<int>` takes the count as an `int`. -/
def waitMs : Option Int64 → Int32
  | some timeout => max 0 (ceilMs timeout).toInt32
  | none => -1

/-- Whether `Resolve` may answer with the last successful result. -/
def usable (successfully_resolved_at : Time) (dns_cache_ttl : Duration) (now : Time) : Bool :=
  successfully_resolved_at.add dns_cache_ttl > now.count

/-- Whether `ProcessCacheEntry` may erase an entry. -/
def unused (used_at : Time) (dns_cache_refresh_duration : Duration) (now : Time) : Bool :=
  used_at.add dns_cache_refresh_duration ≤ now.count

/-- Whether `ProcessCacheEntry` looks a name up. -/
def due (resolved_at : Time) (dns_cache_refresh_period : Duration) (now : Time) : Bool :=
  resolved_at.add dns_cache_refresh_period ≤ now.count

/-- When `ProcessCacheEntry` is to run again. -/
def next (resolved_at : Time) (dns_cache_refresh_period : Duration) (used_at : Time)
    (dns_cache_refresh_duration : Duration) : Int64 :=
  min (resolved_at.add dns_cache_refresh_period) (used_at.add dns_cache_refresh_duration)

/-- What the code checks of its options: `timeout_ > 0`, and the durations of the cache. -/
structure Options where
  timeout : Duration
  dns_cache_ttl : Duration
  dns_cache_refresh_period : Duration
  dns_cache_refresh_duration : Duration

/-- The clock and what a cache entry has recorded of it. -/
structure Readings where
  now : Time
  used_at : Time
  resolved_at : Time
  successfully_resolved_at : Time

/-- A timeout in milliseconds, rounded up. -/
def Duration.ms (d : Duration) : ℤ := (d.ns + 999999) / 1000000

/-- The code computes with these values as over the integers: a handler that was just added or
refreshed is not expired, the loop neither spins nor wakes early, and the cache compares and
schedules by the sums. -/
structure Exact (o : Options) (r : Readings) : Prop where
  sets : (deadline r.now o.timeout).toInt = r.now.ns + o.timeout.ns
  unexpired : expired (deadline r.now o.timeout) r.now = false
  waits : 1 ≤ (waitMs (some o.timeout.count)).toInt
  sleeps : min o.timeout.ms 2147483647 ≤ (waitMs (some o.timeout.count)).toInt
  answers : usable r.successfully_resolved_at o.dns_cache_ttl r.now =
    decide (r.successfully_resolved_at.ns + o.dns_cache_ttl.ns > r.now.ns)
  forgets : unused r.used_at o.dns_cache_refresh_duration r.now =
    decide (r.used_at.ns + o.dns_cache_refresh_duration.ns ≤ r.now.ns)
  refreshes : due r.resolved_at o.dns_cache_refresh_period r.now =
    decide (r.resolved_at.ns + o.dns_cache_refresh_period.ns ≤ r.now.ns)
  schedules : (next r.resolved_at o.dns_cache_refresh_period r.used_at
      o.dns_cache_refresh_duration).toInt =
    min (r.resolved_at.ns + o.dns_cache_refresh_period.ns)
      (r.used_at.ns + o.dns_cache_refresh_duration.ns)

/-- The sum of a time and a duration is a time. -/
def Fits (t : Time) (d : Duration) : Prop := t.ns + d.ns ≤ 9223372036854775807

/-- The timeout is an `int` of milliseconds, or happens to become the largest one. -/
def Duration.FitsInt (d : Duration) : Prop :=
  d.ms ≤ 2147483647 ∨ d.ms % 4294967296 = 2147483647

section Add

variable (t now : Time) (d : Duration)

theorem Duration.ns_pos : 0 < d.ns := Int64.lt_iff_toInt_lt.mp d.positive

theorem Time.ns_nonneg : 0 ≤ t.ns := Int64.le_iff_toInt_le.mp t.since

theorem Duration.ns_lt : d.ns ≤ 9223372036854775807 := by
  have := d.count.toInt_lt
  unfold Duration.ns
  omega

theorem Time.ns_lt : t.ns ≤ 9223372036854775807 := by
  have := t.count.toInt_lt
  unfold Time.ns
  omega

theorem Time.ns_toNat : (t.ns.toNat : ℤ) = t.ns := Int.toNat_of_nonneg t.ns_nonneg

/-- The sum is the one that the loops and the cache compute. -/
theorem Time.add_toInt : (t.add d).toInt = Clock.add t.ns.toNat d.count := by
  have same : Int64.ofNat t.ns.toNat = t.count := by
    rw [← Int64.ofInt_eq_ofNat, t.ns_toNat]
    exact t.count.ofInt_toInt
  rw [Clock.add, same]
  rfl

theorem fits_iff : Fits t d ↔ Clock.Fits t.ns.toNat d.count := by
  rw [Clock.Fits, t.ns_toNat]
  rfl

theorem Time.add_of_fits (fits : Fits t d) : (t.add d).toInt = t.ns + d.ns := by
  rw [t.add_toInt, Clock.add_of_fits ((fits_iff t d).mp fits), t.ns_toNat]
  rfl

/-- A sum that does not fit is in the past. -/
theorem Time.add_of_not_fits (large : ¬Fits t d) : (t.add d).toInt < 0 := by
  have reading : t.ns.toNat ≤ 9223372036854775807 := Int.toNat_le.mpr t.ns_lt
  rw [t.add_toInt]
  exact Clock.add_of_not_fits reading ((fits_iff t d).not.mp large)

theorem Time.add_eq_iff : (t.add d).toInt = t.ns + d.ns ↔ Fits t d := by
  refine ⟨fun exact => ?_, t.add_of_fits d⟩
  have := (t.add d).toInt_lt
  unfold Fits
  omega

/-- Comparing a sum with a reading of the clock tells whether it has overflowed. -/
theorem Time.add_le_iff : decide (t.add d ≤ now.count) = decide (t.ns + d.ns ≤ now.ns) ↔ Fits t d := by
  rw [decide_eq_decide, Int64.le_iff_toInt_le]
  show ((t.add d).toInt ≤ now.ns ↔ _) ↔ _
  have := now.ns_nonneg
  have := now.ns_lt
  by_cases fits : Fits t d
  · simp [t.add_of_fits d fits, fits]
  · have past := t.add_of_not_fits d fits
    have large : ¬t.ns + d.ns ≤ 9223372036854775807 := fits
    constructor
    · intro same
      have := same.mp (by omega)
      omega
    · intro fits
      exact absurd fits large

theorem Time.lt_add_iff : decide (t.add d > now.count) = decide (t.ns + d.ns > now.ns) ↔ Fits t d := by
  rw [← t.add_le_iff now d, decide_eq_decide, decide_eq_decide, gt_iff_lt, gt_iff_lt,
    Int64.lt_iff_toInt_lt, Int64.le_iff_toInt_le, ← Int.not_le, ← Int.not_le, not_iff_not]

end Add

section Wait

variable (d : Duration)

theorem ceilMs_toInt : (ceilMs d.count).toInt = d.ms := by
  have positive := d.ns_pos
  have bound := d.ns_lt
  have whole : (d.count / 1000000).toInt = d.ns / 1000000 := by
    rw [Int64.toInt_div_of_ne_right _ _ (by decide)]
    exact Int.tdiv_eq_ediv_of_nonneg (Int.le_of_lt positive)
  have back : (d.count / 1000000 * 1000000).toInt = d.ns / 1000000 * 1000000 := by
    rw [Int64.toInt_mul, whole]
    show (d.ns / 1000000 * 1000000).bmod _ = _
    rw [Int.bmod_eq_of_le] <;> omega
  have after : (d.count / 1000000 + 1).toInt = d.ns / 1000000 + 1 := by
    rw [Int64.toInt_add, whole]
    show (d.ns / 1000000 + 1).bmod _ = _
    rw [Int.bmod_eq_of_le] <;> omega
  have rounded : d.count / 1000000 * 1000000 < d.count ↔ d.ns / 1000000 * 1000000 < d.ns := by
    rw [Int64.lt_iff_toInt_lt, back]
    rfl
  unfold ceilMs Duration.ms
  dsimp only
  split
  · rename_i less
    have := rounded.mp less
    rw [after]
    omega
  · rename_i same
    have := rounded.not.mp same
    rw [whole]
    omega

theorem Duration.ms_pos : 1 ≤ d.ms := by
  have := d.ns_pos
  unfold Duration.ms
  omega

theorem waitMs_toInt : (waitMs (some d.count)).toInt = max 0 (d.ms.bmod 4294967296) := by
  have narrowed : (ceilMs d.count).toInt32.toInt = d.ms.bmod 4294967296 := by
    rw [Int64.toInt_toInt32, ceilMs_toInt]
  have bigger : ∀ x : Int32, (max 0 x).toInt = max 0 x.toInt := by
    intro x
    show (if 0 ≤ x then x else 0).toInt = _
    have compared : 0 ≤ x ↔ 0 ≤ x.toInt := Int32.le_iff_toInt_le
    split
    · rename_i le
      have := compared.mp le
      omega
    · rename_i less
      have := compared.not.mp less
      have : (0 : Int32).toInt = 0 := rfl
      omega
  rw [← narrowed]
  exact bigger _

/-- The argument of `epoll_wait` is long enough exactly when no bits were lost, or when those
that are left make up the largest `int`. -/
theorem waitMs_iff : min d.ms 2147483647 ≤ (waitMs (some d.count)).toInt ↔ d.FitsInt := by
  have positive := d.ms_pos
  rw [waitMs_toInt, Int.bmod_def]
  unfold Duration.FitsInt
  split <;> omega

end Wait

/-- No sum is too large for its type, and neither is the timeout in milliseconds. -/
structure InRange (o : Options) (r : Readings) : Prop where
  timeout : Fits r.now o.timeout
  wait : o.timeout.FitsInt
  ttl : Fits r.successfully_resolved_at o.dns_cache_ttl
  period : Fits r.resolved_at o.dns_cache_refresh_period
  duration : Fits r.used_at o.dns_cache_refresh_duration

section Exact

variable (o : Options) (r : Readings)

theorem min_toInt (a b : Int64) : (min a b).toInt = min a.toInt b.toInt := by
  show (if a ≤ b then a else b).toInt = _
  have compared : a ≤ b ↔ a.toInt ≤ b.toInt := Int64.le_iff_toInt_le
  split
  · rename_i le
    have := compared.mp le
    omega
  · rename_i less
    have := compared.not.mp less
    omega

theorem next_of_inRange (range : InRange o r) :
    (next r.resolved_at o.dns_cache_refresh_period r.used_at o.dns_cache_refresh_duration).toInt =
      min (r.resolved_at.ns + o.dns_cache_refresh_period.ns)
        (r.used_at.ns + o.dns_cache_refresh_duration.ns) := by
  rw [next, min_toInt, Time.add_of_fits _ _ range.period, Time.add_of_fits _ _ range.duration]

/-- The arithmetic on times is exact exactly for the options and readings whose sums fit into 64
bits, with a timeout whose milliseconds fit into an `int`. -/
theorem exact_iff_inRange : Exact o r ↔ InRange o r := by
  constructor
  · intro exact
    refine ⟨(Time.add_eq_iff _ _).mp exact.sets, (waitMs_iff _).mp exact.sleeps, ?_, ?_, ?_⟩
    · exact (Time.lt_add_iff _ _ _).mp exact.answers
    · exact (Time.add_le_iff _ _ _).mp exact.refreshes
    · exact (Time.add_le_iff _ _ _).mp exact.forgets
  · intro range
    have sleeps := (waitMs_iff o.timeout).mpr range.wait
    refine ⟨Time.add_of_fits _ _ range.timeout, ?_, ?_, sleeps, ?_, ?_, ?_, ?_⟩
    · have later : decide (r.now.add o.timeout > r.now.count) = true := by
        have := o.timeout.ns_pos
        rw [(Time.lt_add_iff _ _ _).mpr range.timeout, decide_eq_true_eq]
        omega
      show (!decide (r.now.add o.timeout > r.now.count)) = false
      rw [later]
      rfl
    · have := o.timeout.ms_pos
      omega
    · exact (Time.lt_add_iff _ _ _).mpr range.ttl
    · exact (Time.add_le_iff _ _ _).mpr range.duration
    · exact (Time.add_le_iff _ _ _).mpr range.period
    · exact next_of_inRange o r range

end Exact

/-- A timeout of 2^32 milliseconds, and the options of the cache as they are by default. -/
def longTimeout : Options where
  timeout := ⟨4294967296000000, by decide⟩
  dns_cache_ttl := ⟨300000000000, by decide⟩
  dns_cache_refresh_period := ⟨75000000000, by decide⟩
  dns_cache_refresh_duration := ⟨3600000000000, by decide⟩

def epoch : Time := ⟨0, by decide⟩

theorem longTimeout_spins :
    waitMs (some longTimeout.timeout.count) = 0 ∧ ¬ ∀ o r, Exact o r := by
  refine ⟨by decide, fun exact => ?_⟩
  have waits := (exact longTimeout ⟨epoch, epoch, epoch, epoch⟩).waits
  revert waits
  decide

end Hcproxy.Machine
