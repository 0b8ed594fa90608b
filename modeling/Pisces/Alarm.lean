import Pisces.Sysfs

/-!
# The power-off alarm

A phone that charges while it is off starts again when its alarm is due. healthd
reads the time of the alarm and the time of the clock, asks the kernel to be
woken, and then waits. Each wake-up is followed by a look at the clock, and the
loop ends only within two seconds of the alarm, before or after it. A wake-up
that comes later is taken for one that comes too early.
-/

namespace Pisces.Alarm

open Pisces.Sysfs

/-- The time of the alarm or of the clock, unless it cannot be read. -/
def timeOf (files : Files) (timeType : AlarmTimeType) (buf : Buffer) : Option Int32 :=
  match alarmGetTime files timeType buf with
  | (rc, secs) => if rc < 0 then none else secs

/-- One turn of the loop: what `ANDROID_ALARM_WAIT` returns, and the files and
the buffer with which the clock is read then. -/
structure Wakeup where
  rc : ℤ
  errno : ℤ
  files : Files
  buf : Buffer

def eintr : ℤ := 4

def Wakeup.reading (w : Wakeup) : Option Int32 := timeOf w.files .rtcTime w.buf

def errSecs : Int32 := 2

def alarmIsAlmExpired (almSecs : Int32) (w : Wakeup) : Bool :=
  match w.reading with
  | none => false
  | some rtcSecs => rtcSecs - errSecs ≤ almSecs && almSecs ≤ rtcSecs + errSecs

section

variable (almSecs : Int32)

/-- The condition under which the loop goes on. -/
def goesOn (w : Wakeup) : Bool :=
  w.rc < 0 && w.errno = eintr || !alarmIsAlmExpired almSecs w

/-- The loop, and the return code it leads to, with the wake-up it ended at. After
the last wake-up there is it still waits. -/
def waitLoop : List Wakeup → Option (ℤ × Wakeup)
  | [] => none
  | w :: ws =>
      if goesOn almSecs w then waitLoop ws else some (if w.rc ≤ 0 then -1 else 0, w)

/-- The alarm device: whether it opens, the elapsed time it has, and whether it
can be set. -/
structure AlarmDev where
  opens : Bool
  elapsed : Option Int32
  set : Int32 → Bool

def alarmSetRebootTimeAndWait (dev : AlarmDev) (secs : Int32) (ws : List Wakeup) : Option ℤ :=
  if dev.opens then
    match dev.elapsed with
    | none => some (-1)
    | some tvSec =>
        if dev.set (tvSec + secs) then (waitLoop almSecs ws).map Prod.fst else some (-1)
  else some (-1)

/-- The thread, with the files and the buffers of its own two readings. It ends
with a reboot or without one. -/
def alarmThread (files files' : Files) (buf buf' : Buffer) (dev : AlarmDev)
    (ws : List Wakeup) : Option Bool :=
  match timeOf files .alarmTime buf, timeOf files' .rtcTime buf' with
  | some almSecs, some rtcSecs =>
      if almSecs = 0 ∨ almSecs - rtcSecs ≤ 0 then some false
      else (alarmSetRebootTimeAndWait almSecs dev (almSecs - rtcSecs) ws).map (0 ≤ ·)
  | _, _ => some false

/-- The wake-up is one at which the phone is to start. -/
def Due (w : Wakeup) : Prop :=
  0 < w.rc ∧ ∃ rtcSecs, w.reading = some rtcSecs ∧ almSecs.toInt - 2 ≤ rtcSecs.toInt

/-- The loop does not end with success early, and it ends with success at the
first wake-up that is due, if it gets there. -/
structure InTime (ws : List Wakeup) : Prop where
  early : ∀ w, waitLoop almSecs ws = some (0, w) →
    ∃ rtcSecs, w.reading = some rtcSecs ∧ almSecs.toInt - 2 ≤ rtcSecs.toInt
  missed : ∀ before w after, ws = before ++ w :: after → waitLoop almSecs before = none →
    (∀ w' ∈ before, ¬ Due almSecs w') → Due almSecs w → waitLoop almSecs ws = some (0, w)

/-- The clock is past the two seconds, or the sum of the two overflows. -/
def Late (w : Wakeup) : Prop :=
  ∃ rtcSecs, w.reading = some rtcSecs ∧
    (almSecs.toInt + 2 < rtcSecs.toInt ∨ 2 ^ 31 ≤ rtcSecs.toInt + 2)

/-- The first wake-up that is due, if the loop gets there, is not late. -/
def NotLate (ws : List Wakeup) : Prop :=
  ∀ before w after, ws = before ++ w :: after → (∀ w' ∈ before, goesOn almSecs w') →
    (∀ w' ∈ before, ¬ Due almSecs w') → Due almSecs w → ¬ Late almSecs w

end

variable {almSecs : Int32} {w : Wakeup} {ws before after : List Wakeup}

theorem toInt_sub_two (r : Int32) :
    (r - errSecs).toInt = if r.toInt - 2 < -2 ^ 31 then r.toInt - 2 + 2 ^ 32 else r.toInt - 2 := by
  have hlow := r.le_toInt
  have hhigh := r.toInt_lt
  rw [Int32.toInt_sub, show errSecs.toInt = 2 from rfl, Int.bmod_def]
  split <;> split <;> omega

theorem toInt_add_two (r : Int32) :
    (r + errSecs).toInt = if 2 ^ 31 ≤ r.toInt + 2 then r.toInt + 2 - 2 ^ 32 else r.toInt + 2 := by
  have hlow := r.le_toInt
  have hhigh := r.toInt_lt
  rw [Int32.toInt_add, show errSecs.toInt = 2 from rfl, Int.bmod_def]
  split <;> split <;> omega

/-- The window, for a time of the alarm that alarm_thread lets through. -/
theorem alarmIsAlmExpired_iff (halm : 0 < almSecs.toInt) :
    alarmIsAlmExpired almSecs w ↔ ∃ rtcSecs, w.reading = some rtcSecs ∧
      almSecs.toInt - 2 ≤ rtcSecs.toInt ∧ rtcSecs.toInt ≤ almSecs.toInt + 2 ∧
      rtcSecs.toInt + 2 < 2 ^ 31 := by
  rw [alarmIsAlmExpired]
  cases hr : w.reading with
  | none => simp
  | some r =>
      have hlow := r.le_toInt
      have hhigh := almSecs.toInt_lt
      simp only [Bool.and_eq_true, decide_eq_true_eq, Int32.le_iff_toInt_le, toInt_sub_two,
        toInt_add_two, Option.some.injEq, exists_eq_left']
      split <;> split <;> omega

theorem waitLoop_append (h : ∀ w' ∈ before, goesOn almSecs w') (ws : List Wakeup) :
    waitLoop almSecs (before ++ ws) = waitLoop almSecs ws := by
  induction before with
  | nil => rfl
  | cons w before ih =>
      rw [List.cons_append, waitLoop, if_pos (h w List.mem_cons_self)]
      exact ih fun w' hw' => h w' (List.mem_cons_of_mem w hw')

theorem waitLoop_none_iff : waitLoop almSecs ws = none ↔ ∀ w ∈ ws, goesOn almSecs w := by
  induction ws with
  | nil => simp [waitLoop]
  | cons w ws ih =>
      rw [waitLoop, List.forall_mem_cons]
      split
      · rename_i hon
        rw [ih, and_iff_right hon]
      · rename_i hoff
        simp [hoff]

/-- Where the loop ended it did not go on. -/
theorem waitLoop_some {rc : ℤ} (h : waitLoop almSecs ws = some (rc, w)) :
    ¬ goesOn almSecs w ∧ rc = if w.rc ≤ 0 then -1 else 0 := by
  induction ws with
  | nil => cases h
  | cons w' ws ih =>
      rw [waitLoop] at h
      split at h
      · exact ih h
      · rename_i hoff
        rw [Option.some.injEq, Prod.mk.injEq] at h
        obtain ⟨hrc, rfl⟩ := h
        exact ⟨hoff, hrc.symm⟩

theorem expired_of_not_goesOn (h : ¬ goesOn almSecs w) : alarmIsAlmExpired almSecs w := by
  simp only [goesOn, Bool.or_eq_true, not_or] at h
  simpa using h.2

/-- A wake-up that is due ends the loop if it is not late. -/
theorem Due.goesOn_iff (halm : 0 < almSecs.toInt) (hdue : Due almSecs w) :
    goesOn almSecs w ↔ Late almSecs w := by
  obtain ⟨hrc, r, hr, hlow⟩ := hdue
  have hpos : ¬ w.rc < 0 := by omega
  have hiff : alarmIsAlmExpired almSecs w ↔ ¬ Late almSecs w := by
    rw [alarmIsAlmExpired_iff halm, Late, hr]
    simp only [Option.some.injEq, exists_eq_left']
    omega
  have hon : goesOn almSecs w ↔ ¬ alarmIsAlmExpired almSecs w := by
    simp [goesOn, hpos]
  rw [hon, hiff, not_not]

/-- The loop is in time if and only if the first wake-up that is due and that it
gets to is not late. -/
theorem inTime_iff (halm : 0 < almSecs.toInt) (ws : List Wakeup) :
    InTime almSecs ws ↔ NotLate almSecs ws := by
  constructor
  · intro htime before w after hws hon hfirst hdue hlate
    have hgets := waitLoop_none_iff.mpr hon
    have hend := htime.missed before w after hws hgets hfirst hdue
    exact (waitLoop_some hend).1 ((hdue.goesOn_iff halm).mpr hlate)
  · intro hnot
    refine ⟨fun w hend => ?_, fun before w after hws hgets hfirst hdue => ?_⟩
    · have hexp := expired_of_not_goesOn (waitLoop_some hend).1
      obtain ⟨r, hr, hlow, -⟩ := (alarmIsAlmExpired_iff halm).mp hexp
      exact ⟨r, hr, hlow⟩
    · have hon := waitLoop_none_iff.mp hgets
      have hlate := hnot before w after hws hon hfirst hdue
      have hoff : ¬ goesOn almSecs w := fun h => hlate ((hdue.goesOn_iff halm).mp h)
      have hpos : ¬ w.rc ≤ 0 := by have := hdue.1; omega
      rw [hws, waitLoop_append hon, waitLoop, if_neg hoff, if_neg hpos]

theorem waitLoop_mem {rc : ℤ} (h : waitLoop almSecs ws = some (rc, w)) : w ∈ ws := by
  induction ws with
  | nil => cases h
  | cons w' ws ih =>
      rw [waitLoop] at h
      split at h
      · exact List.mem_cons_of_mem w' (ih h)
      · rw [Option.some.injEq, Prod.mk.injEq] at h
        rw [← h.2]
        exact List.mem_cons_self

theorem alarmSetRebootTimeAndWait_zero {dev : AlarmDev} {secs : Int32} {rc : ℤ}
    (h : alarmSetRebootTimeAndWait almSecs dev secs ws = some rc) (hrc : 0 ≤ rc) :
    ∃ w, waitLoop almSecs ws = some (0, w) := by
  have hfail : some (-1) ≠ some rc := by
    intro heq
    rw [Option.some.injEq] at heq
    omega
  unfold alarmSetRebootTimeAndWait at h
  split at h
  · split at h
    · exact absurd h hfail
    · split at h
      · rw [Option.map_eq_some_iff] at h
        obtain ⟨⟨rc', w⟩, hend, rfl⟩ := h
        have hcode := (waitLoop_some hend).2
        split at hcode
        · exact absurd (congrArg some hcode.symm) hfail
        · exact ⟨w, by rw [hend, hcode]⟩
      · exact absurd h hfail
  · exact absurd h hfail

/-- The phone reboots only at a wake-up within two seconds of the alarm. -/
theorem alarmThread_reboots {files files' : Files} {buf buf' : Buffer} {dev : AlarmDev}
    (h : alarmThread files files' buf buf' dev ws = some true) :
    ∃ almSecs, timeOf files .alarmTime buf = some almSecs ∧
      ∃ w ∈ ws, 0 < w.rc ∧ alarmIsAlmExpired almSecs w := by
  unfold alarmThread at h
  split at h
  · rename_i almSecs rtcSecs halm _
    split at h
    · cases h
    · rw [Option.map_eq_some_iff] at h
      obtain ⟨rc, hrc, hzero⟩ := h
      rw [decide_eq_true_eq] at hzero
      obtain ⟨w, hend⟩ := alarmSetRebootTimeAndWait_zero hrc hzero
      obtain ⟨hoff, hcode⟩ := waitLoop_some hend
      refine ⟨almSecs, halm, w, waitLoop_mem hend, ?_, expired_of_not_goesOn hoff⟩
      split at hcode
      · cases hcode
      · omega
  · cases h

/-- The wait succeeds, and the clock has these digits then. -/
def wakeAt (digits : List UInt8) : Wakeup := ⟨1, 0, fun _ => .content digits, .zeros⟩

theorem notLate_of_forall (h : ∀ w ∈ ws, ¬ Late almSecs w) : NotLate almSecs ws := by
  rintro before w after rfl - - -
  exact h w (List.mem_append_right before List.mem_cons_self)

/-- The alarm is at 100; the first wake-up is early and the second one in time. -/
theorem inTime_iff_second :
    InTime 100 [wakeAt [53, 48, 10], wakeAt [49, 48, 50, 10]] ∧
      waitLoop 100 [wakeAt [53, 48, 10], wakeAt [49, 48, 50, 10]] =
        some (0, wakeAt [49, 48, 50, 10]) := by
  have hfirst : ¬ Late 100 (wakeAt [53, 48, 10]) := by
    intro hlate
    obtain ⟨r, hr, hlate⟩ := hlate
    obtain rfl : 50 = r := Option.some.inj hr
    exact absurd hlate (by decide)
  have hsecond : ¬ Late 100 (wakeAt [49, 48, 50, 10]) := by
    intro hlate
    obtain ⟨r, hr, hlate⟩ := hlate
    obtain rfl : 102 = r := Option.some.inj hr
    exact absurd hlate (by decide)
  have hnot : ∀ w ∈ [wakeAt [53, 48, 10], wakeAt [49, 48, 50, 10]], ¬ Late 100 w := by
    simp [hfirst, hsecond]
  exact ⟨(inTime_iff (by decide) _).mpr (notLate_of_forall hnot), rfl⟩

/-- The second wake-up comes when the clock is at 103: the loop waits on. -/
theorem late_wakeup_missed :
    Due 100 (wakeAt [49, 48, 51, 10]) ∧
      waitLoop 100 [wakeAt [53, 48, 10], wakeAt [49, 48, 51, 10]] = none ∧
      ¬ InTime 100 [wakeAt [53, 48, 10], wakeAt [49, 48, 51, 10]] := by
  have hdue : Due 100 (wakeAt [49, 48, 51, 10]) := ⟨by decide, 103, rfl, by decide⟩
  have hfirst : ¬ Due 100 (wakeAt [53, 48, 10]) := by
    intro hdue'
    obtain ⟨-, r, hr, hlow⟩ := hdue'
    obtain rfl : 50 = r := Option.some.inj hr
    exact absurd hlow (by decide)
  refine ⟨hdue, rfl, fun htime => ?_⟩
  have hend := htime.missed [wakeAt [53, 48, 10]] _ [] rfl rfl (by simp [hfirst]) hdue
  cases hend

end Pisces.Alarm
