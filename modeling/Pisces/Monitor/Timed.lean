import Pisces.Monitor.Model
import Pisces.Mutex.Deadline

/-!
# Waits against two clocks

`Pisces.Cond` lets a timed wait time out at any time. Here the clocks are part of
the state. A deadline is given on one of them: `pthread_cond_timedwait` reads
`CLOCK_REALTIME`, which anybody may set, the functions for `CLOCK_MONOTONIC` read
one that only goes forward, and two more functions take the time that is left
themselves. All of them end in `__pthread_cond_timedwait_relative`, and its futex
wait measures on the monotonic clock.

The time that is left is taken before the mutex is unlocked, so that a wait may
last longer than it was asked to, but never less long. What the clock of the
deadline does in the meantime is of no account.
-/

namespace Pisces.Monitor

open Pisces.Lib
open Pisces.Mutex (Timespec timespecToAbsolute timespecToAbsolute_yields)

/-- The functions that wait; a time that is missing is a null pointer.
`pthread_cond_timedwait_monotonic` is the same as the one for `_np`. -/
inductive WaitCall where
  | wait
  | timedwait (abstime : Option Timespec)
  | timedwaitMonotonicNp (abstime : Option Timespec)
  | timedwaitRelativeNp (reltime : Option Timespec)
  | timeoutNp (msecs : UInt32)
  deriving DecidableEq, Repr

inductive WaitResult where
  | ok
  | etimedout
  deriving DecidableEq, Repr

/-- What a function does before the mutex is unlocked: it returns, or it calls
`__pthread_cond_timedwait_relative`. -/
inductive Start where
  | timedOut
  | relative (reltime : Option Timespec)
  deriving DecidableEq, Repr

structure Clocks where
  realtime : Timespec
  monotonic : Timespec
  deriving DecidableEq, Repr

/-- `__pthread_cond_timedwait` when its clock says `now`. -/
def condTimedwait (abstime : Option Timespec) (now : Timespec) : Option Start :=
  match abstime with
  | none => some (.relative none)
  | some abstime =>
      (timespecToAbsolute abstime now).map fun r =>
        if r.1 < 0 then .timedOut else .relative (some r.2)

/-- The `ts` of `pthread_cond_timeout_np`. -/
def timeoutTs (msecs : UInt32) : Timespec :=
  ⟨(msecs / 1000).toInt32, (msecs % 1000 * 1000000).toInt32⟩

def WaitCall.start (c : Clocks) : WaitCall → Option Start
  | .wait => condTimedwait none c.realtime
  | .timedwait abstime => condTimedwait abstime c.realtime
  | .timedwaitMonotonicNp abstime => condTimedwait abstime c.monotonic
  | .timedwaitRelativeNp reltime => some (.relative reltime)
  | .timeoutNp msecs => some (.relative (some (timeoutTs msecs)))

/-- How long a caller asks to wait, in nanoseconds; a deadline asks for what is left
of it on its own clock. -/
def WaitCall.asked (c : Clocks) : WaitCall → Option ℤ
  | .wait => none
  | .timedwait abstime => abstime.map fun t => t.ns - c.realtime.ns
  | .timedwaitMonotonicNp abstime => abstime.map fun t => t.ns - c.monotonic.ns
  | .timedwaitRelativeNp reltime => reltime.map Timespec.ns
  | .timeoutNp msecs => some (msecs.toNat * 1000000)

/-- The locals of a wait that have to do with time, and, to speak about it, what its
caller asked for, and when. -/
structure WaitTimer where
  reltime : Option Timespec
  slept : Timespec
  asked : Option ℤ
  start : Timespec
  deriving DecidableEq, Repr

/-- A wait that has returned, at `ended` on the monotonic clock. -/
structure Returned (τ : Type) where
  thread : τ
  result : WaitResult
  asked : Option ℤ
  start : Timespec
  ended : Timespec

structure TimedState (τ : Type) where
  monitor : State τ
  clocks : Clocks
  timer : τ → WaitTimer
  results : List (Returned τ)

inductive TimedEvent (τ : Type) where
  /-- Any event of the monitor but the call of a wait. -/
  | monitor (e : Event τ)
  | wait (t : τ) (call : WaitCall)
  /-- Time passes. -/
  | tick (now : Timespec)
  /-- The other clock goes on, or is set. -/
  | settime (now : Timespec)

section

variable {τ : Type} [DecidableEq τ]

/-- The clock allows the event. -/
def TimedState.inTime (s : TimedState τ) : Event τ → Bool
  | .cond (.startWait _ _) => false
  | .cond (.timeout t) =>
      (s.timer t).reltime.any fun r => (s.timer t).slept.ns + r.ns ≤ s.clocks.monotonic.ns
  | _ => true

/-- A futex wait begins now. -/
def TimedState.timed (s : TimedState τ) : Event τ → τ → WaitTimer
  | .cond (.step t) =>
      if phase (s.monitor.cond.pc t) = .waiting then
        Function.update s.timer t { s.timer t with slept := s.clocks.monotonic }
      else s.timer
  | _ => s.timer

/-- `if (status == (-ETIMEDOUT)) return ETIMEDOUT; return 0;` -/
def TimedState.returned (s : TimedState τ) : Event τ → List (Returned τ)
  | .leave t =>
      match s.monitor.cond.pc t with
      | .lockMutex timedOut =>
          ⟨t, if timedOut then .etimedout else .ok, (s.timer t).asked, (s.timer t).start,
            s.clocks.monotonic⟩ :: s.results
      | _ => s.results
  | _ => s.results

def timedStep (cfg : Mutex.Config τ) (s : TimedState τ) : TimedEvent τ → Option (TimedState τ)
  | .monitor e =>
      if s.inTime e then
        (step cfg s.monitor e).map fun m =>
          { s with monitor := m, timer := s.timed e, results := s.returned e }
      else none
  | .wait t call => do
      guard (s.monitor.cond.pc t = .idle ∧ s.monitor.mutex.pc t = .idle)
      match ← call.start s.clocks with
      | .timedOut =>
          return { s with
            results := ⟨t, .etimedout, call.asked s.clocks, s.clocks.monotonic,
              s.clocks.monotonic⟩ :: s.results }
      | .relative reltime =>
          let m ← step cfg s.monitor (.cond (.startWait t reltime.isSome))
          return { s with
            monitor := m
            timer := Function.update s.timer t
              ⟨reltime, s.clocks.monotonic, call.asked s.clocks, s.clocks.monotonic⟩ }
  | .tick now =>
      if now.Normalised ∧ s.clocks.monotonic.ns ≤ now.ns then
        some { s with clocks.monotonic := now }
      else none
  | .settime now =>
      if now.Normalised ∧ 0 ≤ now.tvSec.toInt then some { s with clocks.realtime := now } else none

def timedInit (ty : Mutex.MutexType) (pshared : Bool) (w : Cond.Word) (c : Clocks) :
    TimedState τ where
  monitor := init ty pshared w
  clocks := c
  timer _ := ⟨none, c.monotonic, none, c.monotonic⟩
  results := []

end

/-- A time of the epoch, with its nanoseconds in range. -/
def TimeOk (t : Timespec) : Prop := t.Normalised ∧ 0 ≤ t.tvSec.toInt

instance (t : Timespec) : Decidable (TimeOk t) := inferInstanceAs (Decidable (_ ∧ _))

/-- What a caller has to say for a deadline. -/
def WaitCall.Ok : WaitCall → Prop
  | .timedwait (some t) | .timedwaitMonotonicNp (some t) => TimeOk t
  | _ => True

instance : (call : WaitCall) → Decidable call.Ok
  | .timedwait (some t) | .timedwaitMonotonicNp (some t) => inferInstanceAs (Decidable (TimeOk t))
  | .timedwait none | .timedwaitMonotonicNp none | .wait | .timedwaitRelativeNp _
  | .timeoutNp _ => .isTrue trivial

def DeadlinesOk {τ : Type} (_ : TimedState τ) : TimedEvent τ → Prop
  | .wait _ call => call.Ok
  | _ => True

instance {τ : Type} (s : TimedState τ) : (e : TimedEvent τ) → Decidable (DeadlinesOk s e)
  | .wait _ call => inferInstanceAs (Decidable call.Ok)
  | .monitor _ | .tick _ | .settime _ => .isTrue trivial

/-- The deadline has passed on its clock. -/
def WaitCall.Late (c : Clocks) : WaitCall → Prop
  | .timedwait (some t) => t.ns < c.realtime.ns
  | .timedwaitMonotonicNp (some t) => t.ns < c.monotonic.ns
  | _ => False

/-! ## Before the mutex is unlocked -/

section Start

variable {c : Clocks} {call : WaitCall}

theorem condTimedwait_late {t now : Timespec} (ht : TimeOk t) (hnow : TimeOk now)
    (hlate : t.ns < now.ns) : condTimedwait (some t) now = some .timedOut := by
  obtain ⟨r, hr, -, hns, hrc⟩ := timespecToAbsolute_yields ht.1 hnow.1 ht.2 hnow.2
  rw [if_pos (by omega)] at hrc
  simp [condTimedwait, hr, hrc]

theorem condTimedwait_left {t now : Timespec} (ht : TimeOk t) (hnow : TimeOk now)
    (hleft : ¬ t.ns < now.ns) :
    ∃ r, condTimedwait (some t) now = some (.relative (some r)) ∧ r.ns = t.ns - now.ns := by
  obtain ⟨r, hr, -, hns, hrc⟩ := timespecToAbsolute_yields ht.1 hnow.1 ht.2 hnow.2
  rw [if_neg (by omega)] at hrc
  refine ⟨r.2, ?_, hns⟩
  simp [condTimedwait, hr, hrc]

theorem toInt_toInt32 {x : UInt32} (h : x.toNat < 2147483648) : x.toInt32.toInt = x.toNat :=
  BitVec.toInt_eq_toNat_of_lt (x := x.toBitVec) (by rw [UInt32.toNat_toBitVec]; omega)

theorem timeoutTs_ns (msecs : UInt32) : (timeoutTs msecs).ns = msecs.toNat * 1000000 := by
  have hlt := msecs.toNat_lt
  have hsec : (msecs / 1000).toNat = msecs.toNat / 1000 := by simp
  have hnsec : (msecs % 1000 * 1000000).toNat = msecs.toNat % 1000 * 1000000 := by
    rw [UInt32.toNat_mul, UInt32.toNat_mod]
    simp only [UInt32.reduceToNat]
    omega
  rw [timeoutTs, Timespec.ns, toInt_toInt32 (by omega), toInt_toInt32 (by omega), hsec, hnsec]
  omega

/-- A wait whose deadline has passed returns at once. -/
theorem WaitCall.start_late (hreal : TimeOk c.realtime) (hmono : TimeOk c.monotonic)
    (hok : call.Ok) (hlate : call.Late c) :
    call.start c = some .timedOut ∧ ∃ d, call.asked c = some d ∧ d < 0 := by
  match call, hok, hlate with
  | .timedwait (some t), hok, hlate =>
      exact ⟨condTimedwait_late hok hreal hlate, _, rfl, Int.sub_neg_of_lt hlate⟩
  | .timedwaitMonotonicNp (some t), hok, hlate =>
      exact ⟨condTimedwait_late hok hmono hlate, _, rfl, Int.sub_neg_of_lt hlate⟩

/-- Any other wait goes on with exactly the time that it was asked for. -/
theorem WaitCall.start_left (hreal : TimeOk c.realtime) (hmono : TimeOk c.monotonic)
    (hok : call.Ok) (hleft : ¬ call.Late c) :
    ∃ r, call.start c = some (.relative r) ∧ r.map Timespec.ns = call.asked c := by
  match call, hok, hleft with
  | .wait, _, _ | .timedwait none, _, _ | .timedwaitMonotonicNp none, _, _ => exact ⟨none, rfl, rfl⟩
  | .timedwait (some t), hok, hleft =>
      obtain ⟨r, hr, hns⟩ := condTimedwait_left hok hreal hleft
      exact ⟨some r, hr, congrArg some hns⟩
  | .timedwaitMonotonicNp (some t), hok, hleft =>
      obtain ⟨r, hr, hns⟩ := condTimedwait_left hok hmono hleft
      exact ⟨some r, hr, congrArg some hns⟩
  | .timedwaitRelativeNp r, _, _ => exact ⟨r, rfl, rfl⟩
  | .timeoutNp msecs, _, _ => exact ⟨some _, rfl, congrArg some (timeoutTs_ns msecs)⟩

end Start

/-! ## What is known of a timer -/

/-- Of a thread in a wait that is at `pc`. -/
structure WaitTimer.Ok (c : WaitTimer) (now : Timespec) (pc : Cond.Pc) (asleep : Bool) :
    Prop where
  asked : c.reltime.map Timespec.ns = c.asked
  start : c.start.ns ≤ now.ns
  slept : asleep = true → c.start.ns ≤ c.slept.ns
  expired : pc = .lockMutex true → ∃ d, c.asked = some d ∧ c.start.ns + d ≤ now.ns

section Timer

variable {c : WaitTimer} {now now' : Timespec} {pc pc' : Cond.Pc} {asleep asleep' : Bool}

/-- A thread that stays where it is. -/
theorem WaitTimer.Ok.stays (h : c.Ok now pc asleep) (hnow : now.ns ≤ now'.ns)
    (hasleep : asleep' = true → asleep = true) : c.Ok now' pc asleep' where
  asked := h.asked
  start := Int.le_trans h.start hnow
  slept hyes := h.slept (hasleep hyes)
  expired hpc := by
    obtain ⟨d, hd, hle⟩ := h.expired hpc
    exact ⟨d, hd, Int.le_trans hle hnow⟩

/-- A thread that goes on before its time is over. -/
theorem WaitTimer.Ok.goes (h : c.Ok now pc asleep) (hpc : pc' ≠ .lockMutex true)
    (hawake : asleep' = false) : c.Ok now pc' asleep' where
  asked := h.asked
  start := h.start
  slept hyes := by
    rw [hawake] at hyes
    cases hyes
  expired hno := absurd hno hpc

/-- A futex wait begins. -/
theorem WaitTimer.Ok.begins (h : c.Ok now pc asleep) :
    ({ c with slept := now } : WaitTimer).Ok now pc asleep' where
  asked := h.asked
  start := h.start
  slept _ := h.start
  expired := h.expired

/-- A wait comes to its end by a wake or a timeout, not by a step of its own. -/
theorem own_inside {word : Cond.Word} (h : Cond.Own word pc pc') (hphase : phase pc' ≠ .outside) :
    phase pc ≠ .outside ∧ pc' ≠ .lockMutex true := by
  cases h with
  | flags | load | retry | locked => exact absurd rfl hphase
  | read | unlocked | changed _ => exact ⟨by simp [phase], by simp⟩

end Timer

/-- A wait that gave up had lasted long enough. -/
def Returned.Fair {τ : Type} (r : Returned τ) : Prop :=
  r.result = .etimedout → ∃ d, r.asked = some d ∧ r.start.ns + d ≤ r.ended.ns

section Step

variable {τ : Type} [DecidableEq τ] {cfg : Mutex.Config τ} {ty : Mutex.MutexType}
  {pshared : Bool} {w : Cond.Word} {s s' : TimedState τ} {t u : τ}

structure TimedInv (cfg : Mutex.Config τ) (ty : Mutex.MutexType) (pshared : Bool) (w : Cond.Word)
    (s : TimedState τ) : Prop where
  realtime : TimeOk s.clocks.realtime
  monotonic : TimeOk s.clocks.monotonic
  sleepers : Cond.SleepersWait s.monitor.cond
  timers : ∀ t, phase (s.monitor.cond.pc t) ≠ .outside →
    (s.timer t).Ok s.clocks.monotonic (s.monitor.cond.pc t) (s.monitor.cond.asleep t)
  results : ∀ r ∈ s.results, r.Fair
  reach : ∃ es, Run (step cfg) always (init ty pshared w) es s.monitor

theorem asleep_of_resume {c : Cond.State τ} {us : List τ} {b : Bool}
    (h : (c.resume us b).asleep u = true) : c.asleep u = true ∧ u ∉ us := by
  obtain ⟨q, hq, rfl⟩ := Cond.asleep_iff.mp h
  obtain ⟨hmem, hnot⟩ := List.mem_filter.mp hq
  exact ⟨Cond.asleep_iff.mpr ⟨q, hmem, rfl⟩, by simpa using hnot⟩

/-- What an event of the condition variable does to the timers. -/
theorem TimedInv.cond (h : TimedInv cfg ty pshared w s) {e : Cond.Event τ} {c : Cond.State τ}
    (hin : s.inTime (.cond e) = true) (hc : Cond.step s.monitor.cond e = some c)
    (hphase : phase (c.pc u) ≠ .outside) :
    (s.timed (.cond e) u).Ok s.clocks.monotonic (c.pc u) (c.asleep u) := by
  -- a thread that the event does not move
  have hframe : s.timed (.cond e) u = s.timer u → c.pc u = s.monitor.cond.pc u →
      (c.asleep u = true → s.monitor.cond.asleep u = true) →
      (s.timed (.cond e) u).Ok s.clocks.monotonic (c.pc u) (c.asleep u) := by
    intro htimer hpc hasleep
    rw [htimer]
    rw [hpc] at hphase ⊢
    exact (h.timers u hphase).stays (Int.le_refl _) hasleep
  -- a sleeper that is told to go on
  have hwoken : s.timed (.cond e) u = s.timer u → s.monitor.cond.asleep u = true →
      c.pc u = .lockMutex false → c.asleep u = false →
      (s.timed (.cond e) u).Ok s.clocks.monotonic (c.pc u) (c.asleep u) := by
    intro htimer hasleep hpc hawake
    have hwait := phase_eq_waiting (h.sleepers.of_asleep hasleep)
    have hold := h.timers u (by rw [hwait]; decide)
    rw [htimer, hpc]
    exact hold.goes (by decide) hawake
  have hout : ∀ {pc}, c.pc u = pc → phase pc ≠ .outside := by
    intro pc hpc
    rw [← hpc]
    exact hphase
  have hother : ∀ {t}, u ≠ t → s.timed (.cond (.step t)) u = s.timer u := by
    intro t hu
    simp only [TimedState.timed]
    split
    · exact Function.update_of_ne hu ..
    · rfl
  have hresumed : ∀ {us b}, u ∈ us → (s.monitor.cond.resume us b).asleep u = false := by
    intro us b hu
    by_contra hasleep
    exact (asleep_of_resume (Bool.eq_true_of_not_eq_false hasleep)).2 hu
  cases Cond.step_fires hc with
  | startWait _ => cases hin
  | @pulse t p hidle =>
      by_cases hu : u = t
      · subst hu
        exact absurd rfl (hout (Function.update_self ..))
      · exact hframe rfl (Function.update_of_ne hu ..) id
  | @own t pc hawake hown =>
      by_cases hu : u = t
      · subst hu
        have hpc : (s.monitor.cond.setPc u pc).pc u = pc := Function.update_self ..
        rw [hpc] at hphase ⊢
        obtain ⟨hbefore, hnot⟩ := own_inside hown hphase
        have hold := h.timers u hbefore
        simp only [TimedState.timed]
        split
        · rw [Function.update_self]
          exact (@WaitTimer.Ok.begins _ _ _ _ false hold).goes hnot hawake
        · exact hold.goes hnot hawake
      · exact hframe (hother hu) (Function.update_of_ne hu ..) id
  | @swap t p fl hawake hpc =>
      by_cases hu : u = t
      · subst hu
        exact absurd rfl (hout (Function.update_self ..))
      · exact hframe (hother hu) (Function.update_of_ne hu ..) id
  | @sleep t timed hawake hpc =>
      by_cases hu : u = t
      · subst hu
        have hwait : phase (s.monitor.cond.pc u) = .waiting := by
          rw [hpc]
          rfl
        have htimer : s.timed (.cond (.step u)) u =
            { s.timer u with slept := s.clocks.monotonic } := by
          simp only [TimedState.timed, if_pos hwait, Function.update_self]
        rw [htimer]
        exact (h.timers u (by rw [hwait]; decide)).begins
      · refine hframe (hother hu) rfl fun hasleep => ?_
        obtain ⟨q, hq, hqu⟩ := Cond.asleep_iff.mp hasleep
        rcases List.mem_cons.mp hq with rfl | hq
        · exact absurd hqu.symm hu
        · exact Cond.asleep_iff.mpr ⟨q, hq, hqu⟩
  | @wake t p woken hpc hmem _ _ =>
      by_cases hu : u = t
      · subst hu
        exact absurd rfl (hout (Function.update_self ..))
      · have hpcu : ((s.monitor.cond.resume woken false).setPc t .idle).pc u =
            if u ∈ woken then .lockMutex false else s.monitor.cond.pc u :=
          Function.update_of_ne hu ..
        by_cases huw : u ∈ woken
        · rw [if_pos huw] at hpcu
          exact hwoken rfl (Cond.asleep_of_wakeable (hmem u huw)) hpcu (hresumed (b := false) huw)
        · rw [if_neg huw] at hpcu
          exact hframe rfl hpcu fun hasleep => (asleep_of_resume (b := false) hasleep).1
  | @interrupt t hasleep =>
      by_cases hu : u = t
      · subst hu
        exact hwoken rfl hasleep (if_pos List.mem_cons_self) (hresumed List.mem_cons_self)
      · exact hframe rfl (if_neg (by simpa using hu)) fun hyes => (asleep_of_resume hyes).1
  | @timeout t old hpc hasleep =>
      by_cases hu : u = t
      · subst hu
        have hold := h.timers u (by rw [hpc]; exact Phase.noConfusion)
        have hpcu : (s.monitor.cond.resume [u] true).pc u = .lockMutex true :=
          if_pos List.mem_cons_self
        rw [hpcu, hresumed List.mem_cons_self]
        obtain ⟨r, hr, hlong⟩ := (Option.any_eq_true _ _).mp hin
        have hlong : (s.timer u).slept.ns + r.ns ≤ s.clocks.monotonic.ns := by simpa using hlong
        have hasked : (s.timer u).asked = some r.ns := by rw [← hold.asked, hr, Option.map_some]
        refine ⟨hold.asked, hold.start, by simp, fun _ => ⟨r.ns, hasked, ?_⟩⟩
        have hslept := hold.slept hasleep
        show (s.timer u).start.ns + r.ns ≤ s.clocks.monotonic.ns
        omega
      · exact hframe rfl (if_neg (by simpa using hu)) fun hyes => (asleep_of_resume hyes).1

/-- The timers after any event of the monitor. -/
theorem TimedInv.monitor_timers (h : TimedInv cfg ty pshared w s) {e : Event τ} {m : State τ}
    (hin : s.inTime e = true) (hm : step cfg s.monitor e = some m)
    (hphase : phase (m.cond.pc u) ≠ .outside) :
    (s.timed e u).Ok s.clocks.monotonic (m.cond.pc u) (m.cond.asleep u) := by
  cases step_fires hm with
  | mutex _ _ | enter _ _ _ => exact h.timers u hphase
  | cond _ hc => exact h.cond hin hc hphase
  | @leave t op c hcall _ _ hc =>
      -- the thread is at a call of the mutex, not at its futex wait
      have hnot : phase (s.monitor.cond.pc t) ≠ .waiting := by
        rcases mutexCall_of_phase hcall with ⟨hp, -⟩ | ⟨hp, -⟩ <;> rw [hp] <;> decide
      have hstep := h.cond (e := .step t) rfl hc hphase
      simp only [TimedState.timed, if_neg hnot] at hstep
      exact hstep

/-- What a wait returns when its mutex is locked again. -/
theorem TimedInv.monitor_results (h : TimedInv cfg ty pshared w s) (e : Event τ) :
    ∀ r ∈ s.returned e, r.Fair := by
  cases e with
  | mutex _ | cond _ | enter _ => exact h.results
  | leave t =>
      simp only [TimedState.returned]
      split
      · next timedOut hpc =>
          intro r hr
          rcases List.mem_cons.mp hr with rfl | hr
          · intro hresult
            have hphase : phase (s.monitor.cond.pc t) ≠ .outside := by
              rw [hpc]
              exact Phase.noConfusion
            cases timedOut with
            | true => exact (h.timers t hphase).expired hpc
            | false => cases hresult
          · exact h.results r hr
      · exact h.results

theorem TimedInv.monitor (h : TimedInv cfg ty pshared w s) {e : Event τ} {m : State τ}
    (hin : s.inTime e = true) (hm : step cfg s.monitor e = some m) :
    TimedInv cfg ty pshared w
      { s with monitor := m, timer := s.timed e, results := s.returned e } where
  realtime := h.realtime
  monotonic := h.monotonic
  sleepers := by
    cases step_fires hm with
    | mutex _ _ | enter _ _ _ => exact h.sleepers
    | cond _ hc => exact h.sleepers.fires (Cond.step_fires hc)
    | leave _ _ _ hc => exact h.sleepers.fires (Cond.step_fires hc)
  timers _ := h.monitor_timers hin hm
  results := h.monitor_results e
  reach := by
    obtain ⟨es, hrun⟩ := h.reach
    exact ⟨_, hrun.snoc trivial hm⟩

/-- The two ways a wait can start. -/
theorem timedStep_wait {call : WaitCall} (hs : timedStep cfg s (.wait t call) = some s') :
    (call.start s.clocks = some .timedOut ∧
      s' = { s with results := ⟨t, .etimedout, call.asked s.clocks, s.clocks.monotonic,
        s.clocks.monotonic⟩ :: s.results }) ∨
    ∃ r m, call.start s.clocks = some (.relative r) ∧
      step cfg s.monitor (.cond (.startWait t r.isSome)) = some m ∧
      s' = { s with
        monitor := m
        timer := Function.update s.timer t
          ⟨r, s.clocks.monotonic, call.asked s.clocks, s.clocks.monotonic⟩ } := by
  simp only [timedStep, Option.bind_eq_bind, Option.bind_eq_some_iff] at hs
  obtain ⟨_, _, start, hstart, hs⟩ := hs
  cases start with
  | timedOut => exact .inl ⟨hstart, (Option.some.inj hs).symm⟩
  | relative r =>
      obtain ⟨m, hm, hs⟩ := Option.bind_eq_some_iff.mp hs
      exact .inr ⟨r, m, hstart, hm, (Option.some.inj hs).symm⟩

/-- A wait that starts has its timer set. -/
theorem TimedInv.starts (h : TimedInv cfg ty pshared w s) {r : Option Timespec} {m : State τ}
    {asked : Option ℤ} (hasked : r.map Timespec.ns = asked)
    (hm : step cfg s.monitor (.cond (.startWait t r.isSome)) = some m) :
    TimedInv cfg ty pshared w { s with
      monitor := m
      timer := Function.update s.timer t ⟨r, s.clocks.monotonic, asked, s.clocks.monotonic⟩ } := by
  obtain ⟨es, hrun⟩ := h.reach
  refine ⟨h.realtime, h.monotonic, ?_, fun u hphase => ?_, h.results, _, hrun.snoc trivial hm⟩
  · cases step_fires hm with
    | cond _ hc => exact h.sleepers.fires (Cond.step_fires hc)
  · cases step_fires hm with
    | cond _ hc =>
        cases Cond.step_fires hc with
        | startWait hidle =>
            by_cases hu : u = t
            · subst hu
              simp only [State.withCond, Cond.State.setPc, Function.update_self]
              exact ⟨hasked, Int.le_refl _, fun _ => Int.le_refl _, by simp⟩
            · simp only [State.withCond, Cond.State.setPc, Function.update_of_ne hu] at hphase ⊢
              exact h.timers u hphase

theorem TimedInv.step (h : TimedInv cfg ty pshared w s) {e : TimedEvent τ}
    (hok : DeadlinesOk s e) (hs : timedStep cfg s e = some s') : TimedInv cfg ty pshared w s' := by
  cases e with
  | monitor e =>
      simp only [timedStep] at hs
      split at hs
      · next hin =>
          obtain ⟨m, hm, rfl⟩ := Option.map_eq_some_iff.mp hs
          exact h.monitor hin hm
      · cases hs
  | wait t call =>
      rcases timedStep_wait hs with ⟨hstart, rfl⟩ | ⟨r, m, hstart, hm, rfl⟩
      · by_cases hlate : call.Late s.clocks
        · obtain ⟨-, d, hd, hneg⟩ := WaitCall.start_late h.realtime h.monotonic hok hlate
          refine ⟨h.realtime, h.monotonic, h.sleepers, h.timers, fun r hr => ?_, h.reach⟩
          rcases List.mem_cons.mp hr with rfl | hr
          · exact fun _ => ⟨d, hd, by simp only; omega⟩
          · exact h.results r hr
        · obtain ⟨r, hr, -⟩ := WaitCall.start_left h.realtime h.monotonic hok hlate
          rw [hstart] at hr
          cases hr
      · by_cases hlate : call.Late s.clocks
        · have hno := (WaitCall.start_late h.realtime h.monotonic hok hlate).1
          rw [hstart] at hno
          cases hno
        · obtain ⟨r', hr', hasked⟩ := WaitCall.start_left h.realtime h.monotonic hok hlate
          rw [hstart] at hr'
          cases hr'
          exact h.starts hasked hm
  | tick now =>
      simp only [timedStep] at hs
      split at hs
      · next hg =>
          obtain ⟨hn, hle⟩ := hg
          cases hs
          have hmono := h.monotonic
          refine ⟨h.realtime, ⟨hn, ?_⟩, h.sleepers,
            fun u hphase => (h.timers u hphase).stays hle id, h.results, h.reach⟩
          simp only [TimeOk, Timespec.ns, Mutex.Timespec.Normalised] at hle hn hmono
          show 0 ≤ now.tvSec.toInt
          omega
      · cases hs
  | settime now =>
      simp only [timedStep] at hs
      split at hs
      · next hg =>
          cases hs
          exact ⟨hg, h.monotonic, h.sleepers, h.timers, h.results, h.reach⟩
      · cases hs

theorem timedInv_reachable {c₀ : Clocks} {es : List (TimedEvent τ)} (hreal : TimeOk c₀.realtime)
    (hmono : TimeOk c₀.monotonic)
    (hrun : Run (timedStep cfg) DeadlinesOk (timedInit ty pshared w c₀) es s) :
    TimedInv cfg ty pshared w s := by
  refine hrun.invariant (I := TimedInv cfg ty pshared w)
    ⟨hreal, hmono, ?_, ?_, ?_, [], .nil⟩ ?_
  · intro q hq
    cases hq
  · intro t hphase
    exact absurd rfl hphase
  · intro r hr
    cases hr
  · intro s e s' h hok hs
    exact h.step hok hs

/-- In every run with a monotonic clock that only goes forward and another that is
set at will: a wait that returned `ETIMEDOUT` had lasted at least as long as its
caller asked for; it returns so at once, without a step, exactly if its deadline has
passed on its own clock at the call; and what the mutex and the condition variable
do is a run of the monitor. -/
theorem timed_wait_in_time {c₀ : Clocks} {es : List (TimedEvent τ)} (hreal : TimeOk c₀.realtime)
    (hmono : TimeOk c₀.monotonic)
    (hrun : Run (timedStep cfg) DeadlinesOk (timedInit ty pshared w c₀) es s) :
    (∀ r ∈ s.results, r.result = .etimedout →
      ∃ d, r.asked = some d ∧ r.start.ns + d ≤ r.ended.ns) ∧
    (∀ t call s', call.Ok → timedStep cfg s (.wait t call) = some s' →
      (call.Late s.clocks → s'.monitor = s.monitor ∧ ∃ r, s'.results = r :: s.results ∧
        r.thread = t ∧ r.result = .etimedout) ∧
      (¬ call.Late s.clocks → s'.results = s.results ∧ phase (s'.monitor.cond.pc t) = .reading)) ∧
    ∃ es', Run (step cfg) always (init ty pshared w) es' s.monitor := by
  have hinv := timedInv_reachable hreal hmono hrun
  refine ⟨hinv.results, fun t call s' hok hs => ⟨fun hlate => ?_, fun hleft => ?_⟩, hinv.reach⟩
  · have hstart := (WaitCall.start_late hinv.realtime hinv.monotonic hok hlate).1
    rcases timedStep_wait hs with ⟨-, rfl⟩ | ⟨r, m, hno, -⟩
    · exact ⟨rfl, _, rfl, rfl, rfl⟩
    · rw [hstart] at hno
      cases hno
  · obtain ⟨r, hr, -⟩ := WaitCall.start_left hinv.realtime hinv.monotonic hok hleft
    rcases timedStep_wait hs with ⟨hno, -⟩ | ⟨r', m, -, hm, rfl⟩
    · rw [hr] at hno
      cases hno
    · refine ⟨rfl, ?_⟩
      cases step_fires hm with
      | cond _ hc =>
          cases Cond.step_fires hc with
          | startWait _ => simp [State.withCond, Cond.State.setPc, phase]

end Step

/-- Thread `t` waits for a millisecond with the mutex. While it sleeps the other clock
is set back; two milliseconds later it gives up. -/
def waitTooLong {T : Type} (t : T) : List (TimedEvent T) :=
  [.monitor (.mutex (.call t .lock)), .monitor (.mutex (.step t)), .monitor (.mutex (.step t)),
    .wait t (.timedwait (some ⟨5, 1000000⟩)), .monitor (.cond (.step t)), .monitor (.enter t),
    .monitor (.mutex (.step t)), .monitor (.mutex (.step t)), .monitor (.leave t),
    .monitor (.cond (.step t)), .settime ⟨3, 0⟩, .tick ⟨1, 2000000⟩,
    .monitor (.cond (.timeout t)), .monitor (.enter t), .monitor (.mutex (.step t)),
    .monitor (.mutex (.step t)), .monitor (.leave t)]

theorem timed_wait_in_time_late :
    ∃ s, Run (timedStep Mutex.twoThreads) DeadlinesOk
        (timedInit .normal false 0#32 ⟨⟨5, 0⟩, ⟨1, 0⟩⟩) (waitTooLong 0) s ∧
      ∃ r, s.results = [r] ∧ r.result = .etimedout ∧ r.ended.ns = 1002000000 ∧
        ∃ d, r.asked = some d ∧ r.start.ns + d ≤ r.ended.ns := by
  have hsome : (runEvents
      (fun s e => if DeadlinesOk s e then timedStep Mutex.twoThreads s e else none)
      (timedInit .normal false 0#32 ⟨⟨5, 0⟩, ⟨1, 0⟩⟩) (waitTooLong 0)).isSome := by decide
  have hrun : Run (timedStep Mutex.twoThreads) DeadlinesOk
      (timedInit .normal false 0#32 ⟨⟨5, 0⟩, ⟨1, 0⟩⟩) (waitTooLong 0) _ :=
    Run.of_checked (Option.some_get hsome).symm
  have hall := (timed_wait_in_time (by decide) (by decide) hrun).1
  exact ⟨_, hrun, _, rfl, rfl, rfl, hall _ List.mem_cons_self rfl⟩

end Pisces.Monitor
