import Pisces.Mutex.Calls
import Pisces.Mutex.Deadline

/-!
# Timed locks against a clock

`Pisces.Mutex.Model` lets a clock check find the deadline passed at any time and a
timed wait time out at any time. Here the clock is part of the state. It only
goes forward, `pthread_mutex_lock_timeout_np` takes its deadline from it at the
call, a clock check does what `__timespec_to_absolute` says, and a futex wait
with a timeout ends by it no earlier than that much time after it began.

Between the check and the wait other threads may run and time may pass, so a
wait may last longer than it should, but not less long.
-/

namespace Pisces.Mutex

open Pisces.Lib

/-- The locals of a timed lock that have to do with time. Two more values are kept
to speak about it: when it was called, and when its last futex wait began. -/
structure Timer where
  msecs : UInt32
  abstime : Timespec
  ts : Timespec
  start : Timespec
  slept : Timespec
  deriving DecidableEq, Repr

structure TimedState (τ : Type) where
  mutex : State τ
  /-- What `CLOCK_MONOTONIC` says. -/
  now : Timespec
  timer : τ → Timer

inductive TimedEvent (τ : Type) where
  /-- Any event of the mutex but the call of a timed lock. -/
  | mutex (e : Event τ)
  | lockTimeoutNp (t : τ) (msecs : UInt32)
  /-- Time passes. -/
  | tick (now : Timespec)

variable {τ : Type}

/-- The clock check of `t`. -/
def TimedState.check (s : TimedState τ) (t : τ) : Option (Int32 × Timespec) :=
  timespecToAbsolute (s.timer t).abstime s.now

/-- The clock allows the event. -/
def TimedState.inTime (s : TimedState τ) : Event τ → Bool
  | .call _ op => op ≠ .lockTimeoutNp
  | .step t =>
      if (s.mutex.pc t).isClock then (s.check t).any fun r => ¬ r.1 < 0 else true
  | .expire t => (s.check t).any fun r => r.1 < 0
  | .timeout t => (s.timer t).slept.ns + (s.timer t).ts.ns ≤ s.now.ns
  | .wake _ _ | .interrupt _ => true

variable [DecidableEq τ]

def TimedState.setTimer (s : TimedState τ) (t : τ) (c : Timer) : TimedState τ :=
  { s with timer := Function.update s.timer t c }

/-- A clock check leaves the time that is left in `ts`; a futex wait begins now. -/
def TimedState.timed (s : TimedState τ) : Event τ → TimedState τ
  | .step t =>
      if (s.mutex.pc t).isClock then
        match s.check t with
        | some (_, ts) => s.setTimer t { s.timer t with ts := ts }
        | none => s
      else if (s.mutex.pc t).isTimedWait then s.setTimer t { s.timer t with slept := s.now }
      else s
  | _ => s

def timedStep (cfg : Config τ) (s : TimedState τ) : TimedEvent τ → Option (TimedState τ)
  | .mutex e =>
      if s.inTime e then (step cfg s.mutex e).map fun m => { s.timed e with mutex := m } else none
  | .lockTimeoutNp t msecs => do
      let abstime ← timespecToRelativeMsec msecs s.now
      let m ← step cfg s.mutex (.call t .lockTimeoutNp)
      return { s.setTimer t ⟨msecs, abstime, ⟨0, 0⟩, s.now, s.now⟩ with mutex := m }
  | .tick now => if now.Normalised ∧ s.now.ns ≤ now.ns then some { s with now := now } else none

/-- A fresh mutex, at some time after the clock was started. -/
def timedInit (ty : MutexType) (pshared : Bool) (now : Timespec) : TimedState τ :=
  { mutex := Mutex.init ty pshared, now := now, timer := fun _ => ⟨0, now, now, now, now⟩ }

/-- A timed lock is called while its deadline can still be said in a `time_t`. -/
def Room (s : TimedState τ) : TimedEvent τ → Prop
  | .lockTimeoutNp _ msecs => s.now.tvSec.toInt + msecs.toNat / 1000 + 1 ≤ 2147483647
  | _ => True

instance (s : TimedState τ) : (e : TimedEvent τ) → Decidable (Room s e)
  | .lockTimeoutNp _ msecs =>
      inferInstanceAs (Decidable (s.now.tvSec.toInt + msecs.toNat / 1000 + 1 ≤ 2147483647))
  | .mutex _ | .tick _ => .isTrue trivial

/-! ## What is known of a timer -/

/-- The deadline is the time of the call and the timeout. -/
structure Timer.Set (c : Timer) : Prop where
  normalised : c.abstime.Normalised
  sec : 0 ≤ c.abstime.tvSec.toInt
  exact : c.abstime.ns = c.start.ns + c.msecs.toNat * 1000000

/-- What is known of the timer of a thread in a timed lock that is at `pc`: its
next wait, or the one it is in, ends no earlier than the deadline. -/
structure TimerOk (now : Timespec) (c : Timer) (pc : Pc) (asleep : Prop) : Prop where
  set : c.Set
  wait : pc.isTimedWait = true → ¬ asleep → c.abstime.ns ≤ now.ns + c.ts.ns
  sleep : pc.isTimedWait = true → asleep → c.abstime.ns ≤ c.slept.ns + c.ts.ns

structure TimedInv (s : TimedState τ) : Prop where
  now : s.now.Normalised ∧ 0 ≤ s.now.tvSec.toInt
  timers : ∀ t, (s.mutex.pc t).op = some .lockTimeoutNp →
    TimerOk s.now (s.timer t) (s.mutex.pc t) (t ∈ s.mutex.queue)

/-- It does not go on to a timed wait. -/
def Next.Untimed : Next → Prop
  | .goto pc => pc.isTimedWait = false
  | .ret _ _ | .sleep => True

theorem lockLoop_untimed (op : Op) (m mvalue : Word) :
    (lockLoop op m mvalue).isTimedWait = false := by
  rw [lockLoop]
  split
  · rfl
  · split
    · rfl
    · split
      · rfl
      · next hop => simp [Pc.isTimedWait, hop]

theorem recursiveIncrement_untimed (op : Op) (mvalue mtype : Word) :
    (recursiveIncrement op mvalue mtype).Untimed := by
  rw [recursiveIncrement]
  split
  · trivial
  · split
    · trivial
    · rfl

theorem dispatch_untimed (op : Op) (tid mvalue : Word) : (dispatch op tid mvalue).Untimed := by
  simp only [dispatch]
  split
  · cases op <;> rfl
  · cases op with
    | unlock =>
        simp only
        split
        · trivial
        · split <;> rfl
    | trylock =>
        simp only
        split
        · exact recursiveIncrement_untimed _ _ _
        · rfl
    | lock | lockTimeoutNp =>
        simp only
        split
        · exact recursiveIncrement_untimed _ _ _
        · split
          · rfl
          · exact lockLoop_untimed _ _ _

/-- Only a clock check leads to a timed wait. -/
theorem Pc.step_untimed {pc : Pc} {tid w w' : Word} {nx : Next}
    (hs : pc.step tid w = some (w', nx)) (hclock : pc.isClock = false) : nx.Untimed := by
  have hsame : ∀ {v : Word} {n : Next}, some (v, n) = some (w', nx) → nx = n := by
    intro v n h
    exact (Prod.mk.inj (Option.some.inj h)).2.symm
  have hcas : ∀ {old new : Word} {ok fail : Next}, some (bionicCmpxchg old new w ok fail) =
      some (w', nx) → ok.Untimed → fail.Untimed → nx.Untimed := by
    intro old new ok fail h hok hfail
    rcases bionicCmpxchg_cases (Option.some.inj h) with ⟨-, -, rfl⟩ | ⟨-, -, rfl⟩
    · exact hok
    · exact hfail
  cases pc with
  | idle | nWake _ | wake _ => cases hs
  | nClock _ | acquireClock _ | clock _ _ => cases hclock
  | enter op => rw [hsame hs]; exact dispatch_untimed op tid w
  | nLock op sh | nTry sh | incr op mv | quick op m | tryAcquire m | dec mv =>
      exact hcas hs trivial (by trivial)
  | acquire op m =>
      refine hcas hs trivial ?_
      split <;> rfl
  | flip op m mv =>
      refine hcas hs ?_ ?_
      · split
        · rfl
        · next hop => simp [Next.Untimed, Pc.isTimedWait, hop]
      · split <;> rfl
  | nSwap op sh =>
      rw [hsame hs]
      split
      · trivial
      · split
        · rfl
        · next hop => simp [Next.Untimed, Pc.isTimedWait, hop]
  | nStore sh | incrReload op | flipReload m | decReload =>
      rw [hsame hs]
      rfl
  | nWait op sh | wait op m mv | nDec sh | swap nv sh =>
      rw [hsame hs]
      split <;> trivial
  | reload op m => rw [hsame hs]; exact lockLoop_untimed op m w

theorem Pc.afterWait_untimed {pc pc' : Pc} (h : pc.afterWait = some pc') :
    pc'.isTimedWait = false := by
  cases pc <;> simp only [Pc.afterWait, reduceCtorEq, Option.some.injEq] at h <;>
    (subst h; rfl)

theorem Pc.isClock_untimed {pc : Pc} (h : pc.isClock = true) : pc.isTimedWait = false := by
  cases pc <;> simp_all [Pc.isClock, Pc.isTimedWait]

/-! ## One step -/

section Step

variable {now now' : Timespec} {c : Timer} {pc pc' : Pc} {asleep asleep' : Prop}
  {cfg : Config τ} {s s' : TimedState τ} {t u : τ}

/-- A thread that stays where it is. -/
theorem TimerOk.stays (h : TimerOk now c pc asleep) (hnow : now.ns ≤ now'.ns)
    (hq : asleep' ↔ asleep) : TimerOk now' c pc asleep' where
  set := h.set
  wait hpc hno := by
    have hwait := h.wait hpc fun hyes => hno (hq.mpr hyes)
    omega
  sleep hpc hyes := h.sleep hpc (hq.mp hyes)

/-- A thread that is not at a timed wait. -/
theorem TimerOk.untimed (hset : c.Set) (hpc : pc'.isTimedWait = false) :
    TimerOk now c pc' asleep' where
  set := hset
  wait hno := by
    rw [hpc] at hno
    cases hno
  sleep hno := by
    rw [hpc] at hno
    cases hno

omit [DecidableEq τ] in
/-- The clock check of a thread in a timed lock has an answer, and the right one. -/
theorem TimedInv.check (h : TimedInv s) (hop : (s.mutex.pc t).op = some .lockTimeoutNp) :
    ∃ rc ts, s.check t = some (rc, ts) ∧ ts.ns = (s.timer t).abstime.ns - s.now.ns ∧
      (rc < 0 ↔ (s.timer t).abstime.ns < s.now.ns) := by
  have hset := (h.timers t hop).set
  obtain ⟨⟨rc, ts⟩, hcheck, -, hns, hrc⟩ :=
    timespecToAbsolute_yields hset.normalised h.now.1 hset.sec h.now.2
  have hns : ts.ns = (s.timer t).abstime.ns - s.now.ns := hns
  refine ⟨rc, ts, hcheck, hns, ?_⟩
  simp only at hrc
  rw [hrc]
  split
  · exact ⟨fun _ => by omega, fun _ => by decide⟩
  · exact ⟨fun hno => absurd hno (by decide), fun hno => by omega⟩

/-- The timers of the other threads are left alone. -/
theorem timed_timer {e : Event τ} (hne : e ≠ .step u) : (s.timed e).timer u = s.timer u := by
  cases e with
  | step t =>
      have hut : u ≠ t := by
        rintro rfl
        exact hne rfl
      simp only [TimedState.timed]
      split
      · split
        · exact Function.update_of_ne hut _ _
        · rfl
      · split
        · exact Function.update_of_ne hut _ _
        · rfl
  | _ => rfl

theorem timed_now (s : TimedState τ) (e : Event τ) : (s.timed e).now = s.now := by
  cases e with
  | step t =>
      simp only [TimedState.timed]
      split
      · split <;> rfl
      · split <;> rfl
  | _ => rfl

/-- A thread's own step in a timed lock. -/
theorem TimedInv.own (h : TimedInv s) {w : Word} {nx : Next} (hq : t ∉ s.mutex.queue)
    (hst : (s.mutex.pc t).step (cfg.tid t) s.mutex.word = some (w, nx))
    (hop : (nx.pc (s.mutex.pc t)).op = some .lockTimeoutNp) :
    TimerOk s.now ((s.timed (.step t)).timer t) (nx.pc (s.mutex.pc t))
      (t ∈ (s.mutex.advance t w nx).queue) := by
  have hstays := Pc.step_staysIn hst
  have hop' : (s.mutex.pc t).op = some .lockTimeoutNp := by
    cases nx with
    | goto pc' => exact hstays.symm.trans hop
    | ret _ _ => cases hop
    | sleep => exact hop
  have htimer := h.timers t hop'
  simp only [TimedState.timed]
  split
  · next hclock =>
      -- a check with time left, and then perhaps a wait for what is left
      obtain ⟨rc, ts, hcheck, hns, -⟩ := h.check hop'
      simp only [hcheck, TimedState.setTimer, Function.update_self]
      have hset : ({ s.timer t with ts := ts } : Timer).Set :=
        ⟨htimer.set.normalised, htimer.set.sec, htimer.set.exact⟩
      cases nx with
      | ret _ _ => cases hop
      | sleep => exact .untimed hset (Pc.isClock_untimed hclock)
      | goto pc' =>
          refine ⟨hset, fun _ _ => ?_, fun _ hin => absurd hin hq⟩
          show (s.timer t).abstime.ns ≤ s.now.ns + ts.ns
          omega
  · next hclock =>
      have huntimed := Pc.step_untimed hst (by simpa using hclock)
      split
      · next hwait =>
          simp only [TimedState.setTimer, Function.update_self]
          have hset : ({ s.timer t with slept := s.now } : Timer).Set :=
            ⟨htimer.set.normalised, htimer.set.sec, htimer.set.exact⟩
          cases nx with
          | ret _ _ => cases hop
          | goto pc' => exact .untimed hset huntimed
          | sleep =>
              have hbefore := htimer.wait hwait hq
              refine ⟨hset, fun _ hno => absurd List.mem_cons_self hno, fun _ _ => hbefore⟩
      · next hwait =>
          cases nx with
          | ret _ _ => cases hop
          | goto pc' => exact .untimed htimer.set huntimed
          | sleep => exact .untimed htimer.set (Bool.eq_false_iff.mpr hwait)

theorem TimedInv.mutex (h : TimedInv s) {e : Event τ} {m : State τ} (hin : s.inTime e = true)
    (hm : step cfg s.mutex e = some m) : TimedInv { s.timed e with mutex := m } := by
  refine ⟨by simpa [timed_now] using h.now, fun u hop => ?_⟩
  simp only at hop ⊢
  rw [timed_now]
  -- a thread that the event does not move
  have hframe : e ≠ .step u → m.pc u = s.mutex.pc u → (u ∈ m.queue ↔ u ∈ s.mutex.queue) →
      TimerOk s.now ((s.timed e).timer u) (m.pc u) (u ∈ m.queue) := by
    intro hne hpc hq
    rw [timed_timer hne]
    rw [hpc] at hop ⊢
    exact (h.timers u hop).stays (Int.le_refl _) hq
  -- a sleeper that goes on
  have hresume : ∀ {pc : Pc}, e ≠ .step u → (s.mutex.pc u).afterWait = some pc → m.pc u = pc →
      TimerOk s.now ((s.timed e).timer u) (m.pc u) (u ∈ m.queue) := by
    intro pc hne haw hpc
    rw [timed_timer hne]
    rw [hpc] at hop ⊢
    have hbefore := Pc.afterWait_op haw
    exact .untimed (h.timers u (hbefore.symm.trans hop)).set (Pc.afterWait_untimed haw)
  have hidle : m.pc u ≠ .idle := by
    intro hidle
    rw [hidle] at hop
    cases hop
  cases step_fires hm with
  | @call t op _ =>
      by_cases hu : u = t
      · subst hu
        rw [setPc_pc, if_pos rfl] at hop
        have hop : op = .lockTimeoutNp := Option.some.inj hop
        rw [hop] at hin
        cases hin
      · exact hframe nofun (by rw [setPc_pc, if_neg hu]) Iff.rfl
  | @step t w nx hq hst =>
      by_cases hu : u = t
      · subst hu
        rw [advance_pc, if_pos rfl] at hop ⊢
        exact h.own hq hst hop
      · refine hframe (by simpa using fun heq => hu heq.symm) (by rw [advance_pc, if_neg hu]) ?_
        rw [advance_queue]
        split
        · rw [List.mem_cons, or_iff_right hu]
        · exact Iff.rfl
  | @expire t hq hc =>
      by_cases hu : u = t
      · exact absurd (by rw [ret_pc, if_pos hu]) hidle
      · exact hframe nofun (by rw [ret_pc, if_neg hu]) Iff.rfl
  | @wakeNone t sh hsh hno =>
      by_cases hu : u = t
      · exact absurd (by rw [ret_pc, if_pos hu]) hidle
      · exact hframe nofun (by rw [ret_pc, if_neg hu]) Iff.rfl
  | @wakeSome t v sh pc hsh haw hq hkey =>
      by_cases hu : u = t
      · exact absurd (by rw [ret_pc, if_pos hu]) hidle
      · by_cases hv : u = v
        · subst hv
          exact hresume nofun haw (by rw [ret_pc, if_neg hu, resume_pc, if_pos rfl])
        · exact hframe nofun (by rw [ret_pc, if_neg hu, resume_pc, if_neg hv])
            (List.mem_erase_of_ne hv)
  | @interrupt v pc haw hq | @timeout v pc haw hq =>
      by_cases hv : u = v
      · subst hv
        exact hresume nofun haw (by rw [resume_pc, if_pos rfl])
      · exact hframe nofun (by rw [resume_pc, if_neg hv]) (List.mem_erase_of_ne hv)
  | @timeoutBusy v op mt mv pc hpc hq =>
      by_cases hv : u = v
      · exact absurd (by rw [ret_pc, if_pos hv]) hidle
      · exact hframe nofun (by rw [ret_pc, if_neg hv, resume_pc, if_neg hv])
          (List.mem_erase_of_ne hv)

/-- The call of a timed lock sets its timer. -/
theorem TimedInv.call (h : TimedInv s) {msecs : UInt32} {abstime : Timespec} {m : State τ}
    (hroom : s.now.tvSec.toInt + msecs.toNat / 1000 + 1 ≤ 2147483647)
    (habs : timespecToRelativeMsec msecs s.now = some abstime)
    (hm : step cfg s.mutex (.call t .lockTimeoutNp) = some m) :
    TimedInv { s.setTimer t ⟨msecs, abstime, ⟨0, 0⟩, s.now, s.now⟩ with mutex := m } := by
  have hset : (⟨msecs, abstime, ⟨0, 0⟩, s.now, s.now⟩ : Timer).Set := by
    obtain ⟨d, hd, hdn, hds, hns⟩ := timespecToRelativeMsec_yields h.now.1 h.now.2 hroom
    rw [habs, Option.some.injEq] at hd
    subst hd
    exact ⟨hdn, hds, hns⟩
  refine ⟨h.now, fun u hop => ?_⟩
  cases step_fires hm with
  | call _ =>
      simp only [setPc_pc] at hop ⊢
      simp only [TimedState.setTimer, Function.update_apply]
      by_cases hu : u = t
      · simp only [if_pos hu]
        exact .untimed hset rfl
      · simp only [if_neg hu] at hop ⊢
        exact h.timers u hop

theorem TimedInv.step (h : TimedInv s) {e : TimedEvent τ} (hroom : Room s e)
    (hs : timedStep cfg s e = some s') : TimedInv s' := by
  cases e with
  | mutex e =>
      simp only [timedStep] at hs
      split at hs
      · next hin =>
          obtain ⟨m, hm, rfl⟩ := Option.map_eq_some_iff.mp hs
          exact h.mutex hin hm
      · cases hs
  | lockTimeoutNp t msecs =>
      simp only [timedStep, Option.bind_eq_bind, Option.bind_eq_some_iff] at hs
      obtain ⟨abstime, habs, m, hm, hs⟩ := hs
      cases hs
      exact h.call hroom habs hm
  | tick now =>
      simp only [timedStep] at hs
      split at hs
      · next hg =>
          obtain ⟨hn, hle⟩ := hg
          rw [Option.some.injEq] at hs
          subst hs
          refine ⟨⟨hn, ?_⟩, fun u hop => (h.timers u hop).stays hle Iff.rfl⟩
          have hnow := h.now
          simp only [Timespec.ns, Timespec.Normalised] at hle hn hnow ⊢
          omega
      · cases hs

theorem timedInv_reachable {ty : MutexType} {pshared : Bool} {now₀ : Timespec}
    {es : List (TimedEvent τ)} (hn : now₀.Normalised) (hsec : 0 ≤ now₀.tvSec.toInt)
    (hrun : Run (timedStep cfg) Room (timedInit ty pshared now₀) es s) : TimedInv s := by
  refine hrun.invariant (I := TimedInv) ⟨⟨hn, hsec⟩, fun t hop => ?_⟩ ?_
  · cases hop
  · intro s e s' h hroom hs
    exact h.step hroom hs

end Step

/-! ## Neither too early nor too late -/

section Results

variable {cfg : Config τ} {s s' : TimedState τ} {t : τ}

/-- The deadline of the timed lock that `t` is in, in nanoseconds. -/
def TimedState.deadline (s : TimedState τ) (t : τ) : ℤ :=
  (s.timer t).start.ns + (s.timer t).msecs.toNat * 1000000

/-- A timed lock gives up at a clock check, or because its wait has timed out. -/
theorem TimedInv.gives_up (h : TimedInv s) {e : TimedEvent τ} (hs : timedStep cfg s e = some s')
    (hlog : s'.mutex.log = (t, .lockTimeoutNp, .ebusy) :: s.mutex.log) :
    s.deadline t ≤ s.now.ns := by
  have hgrows : s'.mutex.log ≠ s.mutex.log := by
    rw [hlog]
    exact List.cons_ne_self _ _
  cases e with
  | tick now =>
      simp only [timedStep] at hs
      split at hs
      · cases hs
        exact absurd rfl hgrows
      · cases hs
  | lockTimeoutNp u msecs =>
      simp only [timedStep, Option.bind_eq_bind, Option.bind_eq_some_iff] at hs
      obtain ⟨abstime, -, m, hm, hs⟩ := hs
      cases hs
      cases step_fires hm with
      | call _ => exact absurd rfl hgrows
  | mutex e =>
      simp only [timedStep] at hs
      split at hs
      · next hin =>
          obtain ⟨m, hm, rfl⟩ := Option.map_eq_some_iff.mp hs
          cases hfires : step_fires hm with
          | call _ | interrupt _ _ | timeout _ _ => exact absurd rfl hgrows
          | @step u w nx hq hst =>
              cases nx with
              | goto _ | sleep => exact absurd rfl hgrows
              | ret op r =>
                  obtain ⟨-, rfl, rfl⟩ := ret_inj hlog
                  have htry := Pc.step_ebusy hst
                  cases htry
          | @expire u hq hc =>
              obtain ⟨rfl, -⟩ := ret_inj hlog
              have hop := isClock_op hc
              obtain ⟨rc, ts, hcheck, -, hrc⟩ := h.check hop
              have hlate : rc < 0 := by simpa [TimedState.inTime, hcheck] using hin
              have hset := (h.timers u hop).set.exact
              have hpast := hrc.mp hlate
              rw [TimedState.deadline]
              omega
          | wakeNone _ _ | wakeSome _ _ _ _ =>
              obtain ⟨-, hno, -⟩ := ret_inj hlog
              cases hno
          | @timeoutBusy u op mt mv pc hpc hq =>
              obtain ⟨rfl, -⟩ := ret_inj hlog
              have hwait := timeout_isTimedWait hm
              have htimer := h.timers u (isTimedWait_op hwait)
              have hset := htimer.set.exact
              have hsleep := htimer.sleep hwait hq
              have hlate : (s.timer u).slept.ns + (s.timer u).ts.ns ≤ s.now.ns := by
                simpa [TimedState.inTime] using hin
              rw [TimedState.deadline]
              omega
      · cases hs

/-- A clock check finds the deadline passed exactly when it is. -/
theorem TimedInv.at_check (h : TimedInv s) (hclock : (s.mutex.pc t).isClock = true)
    (hq : t ∉ s.mutex.queue) :
    ((timedStep cfg s (.mutex (.expire t))).isSome ↔ s.deadline t < s.now.ns) ∧
    ((timedStep cfg s (.mutex (.step t))).isSome ↔ s.now.ns ≤ s.deadline t) := by
  have hop := isClock_op hclock
  obtain ⟨rc, ts, hcheck, -, hrc⟩ := h.check hop
  have hset := (h.timers t hop).set.exact
  have hgo : (Mutex.step cfg s.mutex (.step t)).isSome := by
    simp only [Mutex.step, if_neg hq, Option.isSome_map]
    cases hpc : s.mutex.pc t <;> rw [hpc] at hclock <;> first | rfl | cases hclock
  have hgive : (Mutex.step cfg s.mutex (.expire t)).isSome := by
    simp only [Mutex.step, if_pos (And.intro hq hclock), Option.isSome_some]
  rw [TimedState.deadline, ← hset]
  constructor
  · rw [← hrc]
    simp [timedStep, TimedState.inTime, hcheck, Option.isSome_map, hgive, apply_ite Option.isSome]
  · rw [← Int.not_lt, ← hrc]
    simp [timedStep, TimedState.inTime, hcheck, hclock, Option.isSome_map, hgo,
      apply_ite Option.isSome]

/-- In every run on a mutex of any type, with a clock that only goes forward: a timed
lock never returns `EBUSY` before its deadline, and at a clock check it returns
`EBUSY` exactly if the deadline has passed and otherwise goes on. -/
theorem timed_lock_in_time {ty : MutexType} {pshared : Bool} {now₀ : Timespec}
    {es : List (TimedEvent τ)} (hn : now₀.Normalised) (hsec : 0 ≤ now₀.tvSec.toInt)
    (hrun : Run (timedStep cfg) Room (timedInit ty pshared now₀) es s) :
    (∀ e s' t, timedStep cfg s e = some s' →
      s'.mutex.log = (t, .lockTimeoutNp, .ebusy) :: s.mutex.log → s.deadline t ≤ s.now.ns) ∧
    ∀ t, (s.mutex.pc t).isClock = true → t ∉ s.mutex.queue →
      ((timedStep cfg s (.mutex (.expire t))).isSome ↔ s.deadline t < s.now.ns) ∧
      ((timedStep cfg s (.mutex (.step t))).isSome ↔ s.now.ns ≤ s.deadline t) := by
  have hinv := timedInv_reachable hn hsec hrun
  exact ⟨fun e s' t hs hlog => hinv.gives_up hs hlog, fun t hclock hq => hinv.at_check hclock hq⟩

end Results

/-- Thread `a` has the mutex. Thread `b` asks for it for a millisecond and sleeps; two
milliseconds later its wait times out and it looks at the clock again. -/
def sleepTooLong {T : Type} (a b : T) : List (TimedEvent T) :=
  [.mutex (.call a .lock), .mutex (.step a), .mutex (.step a), .lockTimeoutNp b 1,
    .mutex (.step b), .mutex (.step b), .mutex (.step b), .mutex (.step b), .mutex (.step b),
    .tick ⟨5, 2000000⟩, .mutex (.timeout b), .mutex (.step b)]

theorem timed_lock_in_time_late :
    ∃ s, Run (timedStep twoThreads) Room (timedInit .normal false ⟨5, 0⟩) (sleepTooLong 1 0) s ∧
      s.mutex.pc 0 = .nClock 0#32 ∧ s.deadline 0 = 5001000000 ∧ s.now.ns = 5002000000 ∧
      (timedStep twoThreads s (.mutex (.expire 0))).isSome := by
  have hsome : (runEvents (fun s e => if Room s e then timedStep twoThreads s e else none)
      (timedInit .normal false ⟨5, 0⟩) (sleepTooLong 1 0)).isSome := by decide
  have hdeadline : (Option.get _ hsome).deadline 0 = 5001000000 := by decide +revert
  have hnow : (Option.get _ hsome).now.ns = 5002000000 := by decide +revert
  have hrun : Run (timedStep twoThreads) Room (timedInit .normal false ⟨5, 0⟩)
      (sleepTooLong 1 0) _ :=
    Run.of_checked (Option.some_get hsome).symm
  have hall := (timed_lock_in_time (by decide) (by decide) hrun).2 0 rfl
    (by simpa using fun hno => nomatch hno)
  exact ⟨_, hrun, rfl, hdeadline, hnow, hall.1.mpr (by rw [hdeadline, hnow]; decide)⟩

end Pisces.Mutex
