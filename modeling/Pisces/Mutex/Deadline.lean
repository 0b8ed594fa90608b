import Pisces.Lib.Checked

/-!
# The deadline of a timed lock

`pthread_mutex_lock_timeout_np_impl` turns its milliseconds into a point in
time once, and turns that point back into a remaining time before each sleep.
One function carries from the nanoseconds into the seconds, the other borrows
the other way, both in 32-bit fields.

The clock is read inside both functions. What it says is an argument here, and
every intermediate value is checked, so that an answer means that none of them
has overflowed. The only unsigned values are those that come from `msecs`; they
are added to signed ones, which leaves the exact sum if that fits.
-/

namespace Pisces.Mutex

open Pisces.Lib

/-- `struct timespec`, with a 32-bit `time_t` and `long`. -/
structure Timespec where
  tvSec : Int32
  tvNsec : Int32
  deriving DecidableEq, Repr

/-- `if (ts->tv_nsec < 0) { ts->tv_sec--; ts->tv_nsec += 1000000000; }` -/
def Timespec.borrow (ts : Timespec) : Option Timespec :=
  if ts.tvNsec < 0 then do
    let sec ← int32 (ts.tvSec.toInt - 1)
    let nsec ← int32 (ts.tvNsec.toInt + 1000000000)
    pure ⟨sec, nsec⟩
  else pure ts

/-- `if (abstime->tv_nsec >= 1000000000) { abstime->tv_sec++; ... }` -/
def Timespec.carry (ts : Timespec) : Option Timespec :=
  if 1000000000 ≤ ts.tvNsec then do
    let sec ← int32 (ts.tvSec.toInt + 1)
    let nsec ← int32 (ts.tvNsec.toInt - 1000000000)
    pure ⟨sec, nsec⟩
  else pure ts

/-- `__timespec_to_absolute` when the clock says `now`: its result and what it
leaves in `ts`. -/
def timespecToAbsolute (abstime now : Timespec) : Option (Int32 × Timespec) := do
  let sec ← int32 (abstime.tvSec.toInt - now.tvSec.toInt)
  let nsec ← int32 (abstime.tvNsec.toInt - now.tvNsec.toInt)
  let ts ← Timespec.borrow ⟨sec, nsec⟩
  if ts.tvNsec < 0 || ts.tvSec < 0 then pure (-1, ts) else pure (0, ts)

/-- `__timespec_to_relative_msec` when the clock says `now`: what it leaves in
`abstime`. -/
def timespecToRelativeMsec (msecs : UInt32) (now : Timespec) : Option Timespec := do
  let sec ← int32 (now.tvSec.toInt + (msecs / 1000).toNat)
  let part ← uint32 ((msecs % 1000).toNat * 1000000)
  let nsec ← int32 (now.tvNsec.toInt + part.toNat)
  Timespec.carry ⟨sec, nsec⟩

/-- `0 <= tv_nsec < 10^9` -/
def Timespec.Normalised (t : Timespec) : Prop :=
  0 ≤ t.tvNsec.toInt ∧ t.tvNsec.toInt < 1000000000

instance (t : Timespec) : Decidable t.Normalised := inferInstanceAs (Decidable (_ ∧ _))

/-- The time in nanoseconds. -/
def Timespec.ns (t : Timespec) : ℤ := t.tvSec.toInt * 1000000000 + t.tvNsec.toInt

section

variable {msecs : UInt32} {now abstime now0 now1 : Timespec}

/-- One borrow is enough after a difference of two times that are normalised. -/
theorem borrow_yields (ts : Timespec) (lo : -1000000000 < ts.tvNsec.toInt)
    (hi : ts.tvNsec.toInt < 1000000000) (hs : -2147483648 < ts.tvSec.toInt) :
    Yields ts.borrow fun r => r.Normalised ∧ r.ns = ts.ns := by
  have hmax := ts.tvSec.toInt_le
  simp only [Int32.toInt_maxValue] at hmax
  unfold Timespec.borrow
  split
  case isTrue hb =>
    have hb : ts.tvNsec.toInt < 0 := Int32.lt_iff_toInt_lt.mp hb
    refine (int32_yields (by omega) (by omega)).bind fun sec hsec => ?_
    refine (int32_yields (by omega) (by omega)).bind fun nsec hnsec => Yields.pure ?_
    simp only [Timespec.Normalised, Timespec.ns]
    omega
  case isFalse hb =>
    have hb : 0 ≤ ts.tvNsec.toInt := by simpa [Int32.lt_iff_toInt_lt] using hb
    exact Yields.pure ⟨⟨hb, hi⟩, rfl⟩

/-- One carry is enough after a sum of less than two seconds. -/
theorem carry_yields (ts : Timespec) (lo : 0 ≤ ts.tvNsec.toInt)
    (hi : ts.tvNsec.toInt < 2000000000) (hs : ts.tvSec.toInt < 2147483647) :
    Yields ts.carry fun r =>
      r.Normalised ∧ ts.tvSec.toInt ≤ r.tvSec.toInt ∧ r.ns = ts.ns := by
  have hmin := ts.tvSec.minValue_le_toInt
  simp only [Int32.toInt_minValue] at hmin
  unfold Timespec.carry
  split
  case isTrue hc =>
    have hc : 1000000000 ≤ ts.tvNsec.toInt := Int32.le_iff_toInt_le.mp hc
    refine (int32_yields (by omega) (by omega)).bind fun sec hsec => ?_
    refine (int32_yields (by omega) (by omega)).bind fun nsec hnsec => Yields.pure ?_
    simp only [Timespec.Normalised, Timespec.ns]
    omega
  case isFalse hc =>
    have hc : ts.tvNsec.toInt < 1000000000 := by simpa [Int32.le_iff_toInt_le] using hc
    exact Yields.pure ⟨⟨lo, hc⟩, Int.le_refl _, rfl⟩

/-- The deadline is exact. -/
theorem timespecToRelativeMsec_yields (hn : now.Normalised) (hs : 0 ≤ now.tvSec.toInt)
    (room : now.tvSec.toInt + msecs.toNat / 1000 + 1 ≤ 2147483647) :
    Yields (timespecToRelativeMsec msecs now) fun d =>
      d.Normalised ∧ 0 ≤ d.tvSec.toInt ∧ d.ns = now.ns + msecs.toNat * 1000000 := by
  obtain ⟨h0, h1⟩ := hn
  have hdiv : (msecs / 1000).toNat = msecs.toNat / 1000 := by simp
  have hmod : (msecs % 1000).toNat = msecs.toNat % 1000 := by simp
  unfold timespecToRelativeMsec
  rw [hdiv, hmod]
  refine (int32_yields (by omega) (by omega)).bind fun sec hsec => ?_
  refine (uint32_yields (by omega)).bind fun part hpart => ?_
  refine (int32_yields (by omega) (by omega)).bind fun nsec hnsec => ?_
  obtain ⟨d, hd, hdn, hle, hns⟩ :=
    carry_yields ⟨sec, nsec⟩ (show 0 ≤ nsec.toInt by omega)
      (show nsec.toInt < 2000000000 by omega) (show sec.toInt < 2147483647 by omega)
  simp only [Timespec.ns] at hle hns
  refine ⟨d, hd, hdn, by omega, ?_⟩
  simp only [Timespec.ns]
  omega

/-- The remaining time is exact, and the result is -1 exactly when it is
negative: with the nanoseconds in range, its sign is that of the seconds. -/
theorem timespecToAbsolute_yields (ha : abstime.Normalised) (hn : now.Normalised)
    (hs : 0 ≤ abstime.tvSec.toInt) (hs' : 0 ≤ now.tvSec.toInt) :
    Yields (timespecToAbsolute abstime now) fun r =>
      r.2.Normalised ∧ r.2.ns = abstime.ns - now.ns ∧
        r.1 = if r.2.ns < 0 then -1 else 0 := by
  obtain ⟨ha0, ha1⟩ := ha
  obtain ⟨hn0, hn1⟩ := hn
  have hmax := abstime.tvSec.toInt_le
  have hmax' := now.tvSec.toInt_le
  simp only [Int32.toInt_maxValue] at hmax hmax'
  unfold timespecToAbsolute
  refine (int32_yields (by omega) (by omega)).bind fun sec hsec => ?_
  refine (int32_yields (by omega) (by omega)).bind fun nsec hnsec => ?_
  have hb := borrow_yields ⟨sec, nsec⟩ (show -1000000000 < nsec.toInt by omega)
    (show nsec.toInt < 1000000000 by omega) (show -2147483648 < sec.toInt by omega)
  refine hb.bind fun r hr => ?_
  obtain ⟨⟨hr0, hr1⟩, hns⟩ := hr
  have hns : r.ns = abstime.ns - now.ns := by
    simp only [Timespec.ns] at hns ⊢
    omega
  have hsign : (decide (r.tvNsec < 0) || decide (r.tvSec < 0)) = decide (r.ns < 0) := by
    rw [← Bool.decide_or, decide_eq_decide]
    simp only [Int32.lt_iff_toInt_lt, Int32.toInt_zero, Timespec.ns]
    omega
  rw [hsign]
  by_cases hneg : r.ns < 0
  · simp only [hneg, decide_true, if_true]
    exact Yields.pure ⟨⟨hr0, hr1⟩, hns, by simp [hneg]⟩
  · simp only [hneg, decide_false, Bool.false_eq_true, if_false]
    exact Yields.pure ⟨⟨hr0, hr1⟩, hns, by simp [hneg]⟩

/-- The two functions agree: what is left at `now1` of a deadline taken at
`now0` is the timeout less the time that has passed. -/
theorem deadline_exact (hn0 : now0.Normalised) (hs : 0 ≤ now0.tvSec.toInt)
    (room : now0.tvSec.toInt + msecs.toNat / 1000 + 1 ≤ 2147483647)
    (hn1 : now1.Normalised) (later : now0.ns ≤ now1.ns) :
    ∃ abstime, timespecToRelativeMsec msecs now0 = some abstime ∧ abstime.Normalised ∧
      ∃ rc ts, timespecToAbsolute abstime now1 = some (rc, ts) ∧
        (rc = -1 ↔ (msecs.toNat * 1000000 : ℤ) < now1.ns - now0.ns) ∧
        (rc ≠ -1 → rc = 0 ∧ ts.Normalised ∧
          ts.ns = msecs.toNat * 1000000 - (now1.ns - now0.ns)) := by
  have hs1 : 0 ≤ now1.tvSec.toInt := by
    simp only [Timespec.ns, Timespec.Normalised] at *
    omega
  obtain ⟨d, hd, hdn, hds, hdns⟩ := timespecToRelativeMsec_yields hn0 hs room
  obtain ⟨⟨rc, ts⟩, hr, htn, hts, hrc⟩ := timespecToAbsolute_yields hdn hn1 hds hs1
  have hts : ts.ns = d.ns - now1.ns := hts
  refine ⟨d, hd, hdn, rc, ts, hr, ?_⟩
  by_cases hneg : ts.ns < 0
  · simp only [hneg, if_true] at hrc
    simp only [hrc, ne_eq, not_true_eq_false, false_implies, and_true, true_iff]
    omega
  · simp only [hneg, if_false] at hrc
    subst hrc
    refine ⟨?_, fun _ => ⟨rfl, htn, by omega⟩⟩
    simp only [show ¬(0 : Int32) = -1 by decide, false_iff]
    omega

/-- At the deadline itself nothing is left, and that is not yet too late. -/
theorem deadline_exact_at_the_deadline :
    ∃ abstime, timespecToRelativeMsec 1 ⟨7, 999999999⟩ = some abstime ∧ abstime.Normalised ∧
      ∃ rc ts, timespecToAbsolute abstime ⟨8, 999999⟩ = some (rc, ts) ∧
        (rc = -1 ↔ (1 * 1000000 : ℤ) < Timespec.ns ⟨8, 999999⟩ - Timespec.ns ⟨7, 999999999⟩) ∧
        (rc ≠ -1 → rc = 0 ∧ ts.Normalised ∧
          ts.ns = 1 * 1000000 - (Timespec.ns ⟨8, 999999⟩ - Timespec.ns ⟨7, 999999999⟩)) :=
  deadline_exact (by decide) (by decide) (by decide) (by decide) (by decide)

end

end Pisces.Mutex
