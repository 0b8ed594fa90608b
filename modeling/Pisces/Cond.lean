import Pisces.Lib.Runs
import Mathlib.Algebra.Ring.Nat
import Mathlib.Data.List.Basic

/-!
# Condition variables of libp4hread

A condition variable is one word: bit 0 is the process-shared flag and the
rest a counter that every `signal` and `broadcast` moves down by one step, in
a compare-and-exchange loop that masks the flag out and puts it back from a
copy read before the loop. A waiter reads the word, lets go of its mutex, and
asks the futex to sleep only if the word is still the one it read.

So a signal is missed exactly when the counter has come back to where the
waiter saw it. The word has 31 counter bits, every pulse that completes moves
it by exactly one step however the pulses race, and the counter therefore
comes back after a multiple of 2 ^ 31 pulses and at no other time.

The mutex that a waiter unlocks and locks again is another word; those two
calls are steps that leave this one alone.
-/

namespace Pisces.Cond

open Pisces.Lib

abbrev Word := BitVec 32

def condSharedMask : Word := 0x0001#32
def condCounterIncrement : Word := 0x0002#32
def condCounterMask : Word := ~~~condSharedMask

/-- `COND_IS_SHARED` -/
def condIsShared (w : Word) : Bool := w &&& condSharedMask != 0#32

/-- The two callers of `__pthread_cond_pulse`. -/
inductive Pulse where
  | signal
  | broadcast
  deriving DecidableEq, Repr

/-- How many threads the pulse asks the futex to wake: 1 or `INT_MAX`. -/
def Pulse.counter : Pulse → Nat
  | .signal => 1
  | .broadcast => 2 ^ 31 - 1

/-- Where a thread is in `__pthread_cond_pulse` or in
`__pthread_cond_timedwait_relative`, with the locals it still reads. `timed`
says whether the waiter has a timeout. -/
inductive Pc where
  | idle
  /-- `flags = (cond->value & ~COND_COUNTER_MASK)` -/
  | flags (p : Pulse)
  /-- `oldval = cond->value` -/
  | load (p : Pulse) (flags : Word)
  /-- `__bionic_cmpxchg(oldval, newval, &cond->value)` -/
  | cas (p : Pulse) (flags oldval : Word)
  /-- `__futex_wake_ex(&cond->value, COND_IS_SHARED(cond), counter)` -/
  | wake (p : Pulse)
  /-- `oldvalue = cond->value` -/
  | read (timed : Bool)
  /-- `pthread_mutex_unlock(mutex)` -/
  | unlockMutex (timed : Bool) (oldvalue : Word)
  /-- `__futex_wait_ex(&cond->value, COND_IS_SHARED(cond), oldvalue, reltime)` -/
  | wait (timed : Bool) (oldvalue : Word)
  /-- `pthread_mutex_lock(mutex)`, and whether the wait ended by timeout. -/
  | lockMutex (timedOut : Bool)
  deriving DecidableEq, Repr

/-- The new word of a pulse. -/
def pulseWord (oldval flags : Word) : Word :=
  ((oldval - condCounterIncrement) &&& condCounterMask) ||| flags

/-- The condition word, every thread's program point, the threads asleep on
the word with the opcode flag they used, and, as history, the threads whose
exchanges have moved the word, the last one first. -/
structure State (τ : Type) where
  word : Word
  pc : τ → Pc
  queue : List (τ × Bool)
  movers : List τ

/-- How many pulses have moved the word. -/
def State.pulses {τ : Type} (s : State τ) : Nat := s.movers.length

inductive Event (τ : Type) where
  /-- A thread outside calls `signal` or `broadcast`. -/
  | pulse (t : τ) (p : Pulse)
  /-- A thread outside calls a wait, with or without a timeout. -/
  | startWait (t : τ) (timed : Bool)
  /-- A thread that is awake takes its next step. -/
  | step (t : τ)
  /-- A pulse's futex wake, and the sleepers it wakes. -/
  | wake (t : τ) (woken : List τ)
  /-- A sleeper returns without having been woken. -/
  | interrupt (t : τ)
  /-- A timed sleeper's timeout passes. -/
  | timeout (t : τ)
  deriving DecidableEq, Repr

section

variable {τ : Type} [DecidableEq τ]

def State.asleep (s : State τ) (t : τ) : Bool := s.queue.any fun q => q.1 = t

def State.setPc (s : State τ) (t : τ) (pc : Pc) : State τ :=
  { s with pc := Function.update s.pc t pc }

/-- The sleepers in `us` leave the queue and go on to lock their mutex. -/
def State.resume (s : State τ) (us : List τ) (timedOut : Bool) : State τ :=
  { s with
    pc := fun u => if u ∈ us then .lockMutex timedOut else s.pc u
    queue := s.queue.filter fun q => q.1 ∉ us }

/-- A thread's own step. -/
def stepThread (s : State τ) (t : τ) : Option (State τ) :=
  match s.pc t with
  | .idle | .wake _ => none
  | .flags p => some (s.setPc t (.load p (s.word &&& ~~~condCounterMask)))
  | .load p fl => some (s.setPc t (.cas p fl s.word))
  | .cas p fl oldval =>
      if s.word = oldval then
        some { s.setPc t (.wake p) with
          word := pulseWord oldval fl, movers := t :: s.movers }
      else some (s.setPc t (.load p fl))
  | .read timed => some (s.setPc t (.unlockMutex timed s.word))
  | .unlockMutex timed oldvalue => some (s.setPc t (.wait timed oldvalue))
  | .wait _ oldvalue =>
      if s.word = oldvalue then
        some { s with queue := (t, condIsShared s.word) :: s.queue }
      else some (s.setPc t (.lockMutex false))
  | .lockMutex _ => some (s.setPc t .idle)

def step (s : State τ) : Event τ → Option (State τ)
  | .pulse t p => if s.pc t = .idle then some (s.setPc t (.flags p)) else none
  | .startWait t timed => if s.pc t = .idle then some (s.setPc t (.read timed)) else none
  | .step t => if s.asleep t then none else stepThread s t
  | .wake t woken =>
      match s.pc t with
      | .wake p =>
          -- as many sleepers with this opcode as asked for, or all there are
          let sleepers := (s.queue.filter fun q => q.2 = condIsShared s.word).map Prod.fst
          if (∀ u ∈ woken, u ∈ sleepers) ∧ woken.Nodup ∧
              woken.length = min p.counter sleepers.length then
            some ((s.resume woken false).setPc t .idle)
          else none
      | _ => none
  | .interrupt t => if s.asleep t then some (s.resume [t] false) else none
  | .timeout t =>
      match s.pc t with
      | .wait true _ => if s.asleep t then some (s.resume [t] true) else none
      | _ => none

/-- Every thread outside, the word arbitrary. -/
def init (w : Word) : State τ := { word := w, pc := fun _ => .idle, queue := [], movers := [] }

end

/-! ## What an event can do -/

/-- A move of one thread that leaves the word alone. -/
inductive Own (word : Word) : Pc → Pc → Prop
  | flags {p : Pulse} : Own word (.flags p) (.load p (word &&& ~~~condCounterMask))
  | load {p : Pulse} {fl : Word} : Own word (.load p fl) (.cas p fl word)
  | retry {p : Pulse} {fl old : Word} : Own word (.cas p fl old) (.load p fl)
  | read {timed : Bool} : Own word (.read timed) (.unlockMutex timed word)
  | unlocked {timed : Bool} {old : Word} : Own word (.unlockMutex timed old) (.wait timed old)
  | changed {timed : Bool} {old : Word} : word ≠ old →
      Own word (.wait timed old) (.lockMutex false)
  | locked {b : Bool} : Own word (.lockMutex b) .idle

section Fires

variable {τ : Type} [DecidableEq τ] {c c' : State τ} {e : Event τ} {t : τ}

/-- The threads that a wake reaches. -/
def wakeable (c : State τ) : List τ :=
  (c.queue.filter fun q => q.2 = condIsShared c.word).map Prod.fst

inductive Fires (c : State τ) : Event τ → State τ → Prop
  | pulse {t : τ} {p : Pulse} : c.pc t = .idle →
      Fires c (.pulse t p) (c.setPc t (.flags p))
  | startWait {t : τ} {timed : Bool} : c.pc t = .idle →
      Fires c (.startWait t timed) (c.setPc t (.read timed))
  | own {t : τ} {pc : Pc} : c.asleep t = false → Own c.word (c.pc t) pc →
      Fires c (.step t) (c.setPc t pc)
  | swap {t : τ} {p : Pulse} {fl : Word} : c.asleep t = false →
      c.pc t = .cas p fl c.word →
      Fires c (.step t) { c.setPc t (.wake p) with
        word := pulseWord c.word fl, movers := t :: c.movers }
  | sleep {t : τ} {timed : Bool} : c.asleep t = false → c.pc t = .wait timed c.word →
      Fires c (.step t) { c with queue := (t, condIsShared c.word) :: c.queue }
  | wake {t : τ} {p : Pulse} {woken : List τ} : c.pc t = .wake p →
      (∀ u ∈ woken, u ∈ wakeable c) → woken.Nodup →
      woken.length = min p.counter (wakeable c).length →
      Fires c (.wake t woken) ((c.resume woken false).setPc t .idle)
  | interrupt {t : τ} : c.asleep t = true → Fires c (.interrupt t) (c.resume [t] false)
  | timeout {t : τ} {old : Word} : c.pc t = .wait true old → c.asleep t = true →
      Fires c (.timeout t) (c.resume [t] true)

theorem stepThread_fires (hawake : c.asleep t = false) (hs : stepThread c t = some c') :
    Fires c (.step t) c' := by
  cases hpc : c.pc t <;> simp only [stepThread, hpc] at hs
  case idle | wake _ => cases hs
  case cas p fl old =>
    split at hs <;> rw [Option.some.injEq] at hs <;> subst hs
    · next hw =>
        subst hw
        exact .swap hawake hpc
    · exact .own hawake (by rw [hpc]; exact .retry)
  case wait timed old =>
    split at hs <;> rw [Option.some.injEq] at hs <;> subst hs
    · next hw =>
        subst hw
        exact .sleep hawake hpc
    · next hw => exact .own hawake (by rw [hpc]; exact .changed hw)
  all_goals
    rw [Option.some.injEq] at hs
    subst hs
    refine .own hawake ?_
    rw [hpc]
    constructor

theorem step_fires (hs : step c e = some c') : Fires c e c' := by
  cases e with
  | pulse t p | startWait t timed =>
      simp only [step] at hs
      split at hs
      · next hidle =>
          rw [Option.some.injEq] at hs
          subst hs
          first | exact .pulse hidle | exact .startWait hidle
      · cases hs
  | step t =>
      simp only [step] at hs
      split at hs
      · cases hs
      · next hnot => exact stepThread_fires (Bool.eq_false_iff.mpr hnot) hs
  | interrupt t =>
      simp only [step] at hs
      split at hs
      · next hasleep =>
          rw [Option.some.injEq] at hs
          subst hs
          exact .interrupt hasleep
      · cases hs
  | timeout t =>
      simp only [step] at hs
      split at hs
      · next old hpc =>
          split at hs
          · next hasleep =>
              rw [Option.some.injEq] at hs
              subst hs
              exact .timeout hpc hasleep
          · cases hs
      · cases hs
  | wake t woken =>
      simp only [step] at hs
      split at hs
      · next p hp =>
          split at hs
          · next hg =>
              rw [Option.some.injEq] at hs
              subst hs
              exact .wake hp hg.1 hg.2.1 hg.2.2
          · cases hs
      · cases hs

theorem asleep_iff : c.asleep t = true ↔ ∃ q ∈ c.queue, q.1 = t := by
  simp [State.asleep]

theorem asleep_of_wakeable (h : t ∈ wakeable c) : c.asleep t = true := by
  obtain ⟨q, hq, hqt⟩ := List.mem_map.mp h
  exact asleep_iff.mpr ⟨q, (List.mem_filter.mp hq).1, hqt⟩

end Fires

/-! ## Who sleeps -/

def Pc.isWait : Pc → Bool
  | .wait _ _ => true
  | _ => false

section Sleepers

variable {τ : Type} [DecidableEq τ] {c c' : State τ} {e : Event τ} {t : τ}

/-- Only threads at their futex wait sleep. -/
def SleepersWait (c : State τ) : Prop := ∀ q ∈ c.queue, (c.pc q.1).isWait = true

theorem SleepersWait.of_asleep (h : SleepersWait c) (ht : c.asleep t = true) :
    (c.pc t).isWait = true := by
  obtain ⟨q, hq, rfl⟩ := asleep_iff.mp ht
  exact h q hq

theorem SleepersWait.awake (h : SleepersWait c) (ht : (c.pc t).isWait = false) :
    c.asleep t = false := by
  by_contra hasleep
  have hwait := h.of_asleep (by simpa using hasleep)
  rw [ht] at hwait
  cases hwait

/-- One thread moves, and it does not sleep. -/
theorem SleepersWait.set (h : SleepersWait c) {pc : Pc} (hawake : c.asleep t = false)
    (hq : c'.queue = c.queue) (hpc : ∀ u, c'.pc u = Function.update c.pc t pc u) :
    SleepersWait c' := by
  intro q hqueue
  rw [hq] at hqueue
  rw [hpc, Function.update_apply]
  split
  · next ht =>
      have hasleep := asleep_iff.mpr ⟨q, hqueue, ht⟩
      rw [hawake] at hasleep
      cases hasleep
  · exact h q hqueue

theorem SleepersWait.resume (h : SleepersWait c) (us : List τ) (b : Bool) :
    SleepersWait (c.resume us b) := by
  intro q hq
  obtain ⟨hmem, hnot⟩ := List.mem_filter.mp hq
  have hnot : q.1 ∉ us := by simpa using hnot
  show (if q.1 ∈ us then _ else c.pc q.1).isWait = true
  rw [if_neg hnot]
  exact h q hmem

/-- A thread that is awake is none of those that are woken. -/
theorem resume_pc_of_awake {us : List τ} {b : Bool} (hawake : c.asleep t = false)
    (hus : ∀ u ∈ us, c.asleep u = true) : (c.resume us b).pc t = c.pc t := by
  refine if_neg fun ht => ?_
  have hasleep := hus t ht
  rw [hawake] at hasleep
  cases hasleep

theorem SleepersWait.fires (h : SleepersWait c) (hf : Fires c e c') : SleepersWait c' := by
  cases hf with
  | pulse hidle | startWait hidle =>
      exact h.set (h.awake (by rw [hidle]; rfl)) rfl fun _ => rfl
  | own hnot _ | swap hnot _ => exact h.set hnot rfl fun _ => rfl
  | @sleep t timed _ hpc =>
      intro q hq
      rcases List.mem_cons.mp hq with rfl | hq
      · show (c.pc t).isWait = true
        rw [hpc]
        rfl
      · exact h q hq
  | interrupt _ | timeout _ _ => exact h.resume _ _
  | @wake t p woken hpc hmem _ _ =>
      have hawake : c.asleep t = false := h.awake (by rw [hpc]; rfl)
      have hsame : (c.resume woken false).pc t = c.pc t :=
        resume_pc_of_awake hawake fun u hu => asleep_of_wakeable (hmem u hu)
      refine (h.resume woken false).set ((h.resume _ _).awake ?_) rfl fun _ => rfl
      rw [hsame, hpc]
      rfl

end Sleepers

/-! ## One pulse -/

theorem toNat_and_shared (w : Word) : (w &&& condSharedMask).toNat = w.toNat % 2 := by
  rw [condSharedMask, BitVec.toNat_and]
  exact Nat.and_one_is_mod w.toNat

/-- Moving the counter by a step leaves bit 0 alone. -/
theorem shared_sub (w : Word) :
    (w - condCounterIncrement) &&& condSharedMask = w &&& condSharedMask := by
  apply BitVec.eq_of_toNat_eq
  rw [toNat_and_shared, toNat_and_shared, BitVec.toNat_sub,
    show condCounterIncrement.toNat = 2 from rfl]
  omega

/-- Masking the flag out and putting a current copy of it back is the plain
subtraction of one counter step. -/
theorem pulseWord_eq (w : Word) :
    pulseWord w (w &&& condSharedMask) = w - condCounterIncrement := by
  rw [pulseWord, ← shared_sub w, condCounterMask, ← BitVec.and_or_distrib_left,
    show ~~~condSharedMask ||| condSharedMask = BitVec.allOnes 32 from rfl, BitVec.and_allOnes]

/-- `k` steps of the counter. -/
def moved (w : Word) (k : Nat) : Word := w - BitVec.ofNat 32 (2 * k)

theorem moved_zero (w : Word) : moved w 0 = w := by
  rw [moved, Nat.mul_zero, BitVec.sub_zero]

theorem moved_succ (w : Word) (k : Nat) : moved w (k + 1) = moved w k - condCounterIncrement := by
  apply BitVec.eq_of_toNat_eq
  have hw := w.isLt
  rw [moved, moved, BitVec.toNat_sub, BitVec.toNat_sub, BitVec.toNat_sub, BitVec.toNat_ofNat,
    BitVec.toNat_ofNat, show condCounterIncrement.toNat = 2 from rfl]
  omega

theorem moved_shared (w : Word) (k : Nat) :
    moved w k &&& condSharedMask = w &&& condSharedMask := by
  induction k with
  | zero => rw [moved_zero]
  | succ k ih => rw [moved_succ, shared_sub, ih]

/-- The counter is back where it was after a multiple of 2 ^ 31 steps, and at
no other time. -/
theorem moved_eq_iff (w : Word) (k : Nat) : moved w k = w ↔ 2 ^ 31 ∣ k := by
  have hw := w.isLt
  rw [← BitVec.toNat_inj, moved, BitVec.toNat_sub, BitVec.toNat_ofNat]
  omega

/-! ## Racing pulses -/

variable {τ : Type}

/-- The flags a thread carries from its read to its compare-and-exchange. -/
def Pc.flagsAre (f : Word) : Pc → Prop
  | .load _ own | .cas _ own _ => own = f
  | _ => True

/-- Whether a pulse has still to move the word, as a number. -/
def Pc.pending : Pc → Nat
  | .flags _ | .load _ _ | .cas _ _ _ => 1
  | .idle | .wake _ | .read _ | .unlockMutex _ _ | .wait _ _ | .lockMutex _ => 0

/-- What any event does to the word: nothing, or one step of the counter, by a
thread in a pulse that had not made it yet. -/
def Moves (s s' : State τ) : Prop :=
  (s'.movers = s.movers ∧ s'.word = s.word) ∨
  ∃ t, s'.movers = t :: s.movers ∧ s'.word = s.word - condCounterIncrement ∧
    (s.pc t).pending = 1 ∧ (s'.pc t).pending = 0

/-- Every thread on its way to a compare-and-exchange carries the word's own
flag. -/
def FlagsOk (s : State τ) : Prop := ∀ t, (s.pc t).flagsAre (s.word &&& condSharedMask)

section Step

variable [DecidableEq τ] {s s' : State τ} {e : Event τ} {t : τ}

/-- One thread moves and the flag stays. -/
theorem FlagsOk.set (hf : FlagsOk s) {pc : Pc}
    (hsh : s'.word &&& condSharedMask = s.word &&& condSharedMask)
    (hpc : ∀ u, s'.pc u = Function.update s.pc t pc u)
    (hnew : pc.flagsAre (s.word &&& condSharedMask)) : FlagsOk s' := by
  intro u
  rw [hsh, hpc, Function.update_apply]
  split
  · exact hnew
  · exact hf u

/-- The sleepers that go on carry no flags. -/
theorem FlagsOk.resume (hf : FlagsOk s) (us : List τ) (timedOut : Bool) :
    FlagsOk (s.resume us timedOut) := by
  intro u
  show (if u ∈ us then Pc.lockMutex timedOut else s.pc u).flagsAre _
  split
  · trivial
  · exact hf u

/-- Every event is nothing to the word or one completed pulse. -/
theorem step_moves (hf : FlagsOk s) (hs : step s e = some s') : Moves s s' ∧ FlagsOk s' := by
  cases step_fires hs with
  | pulse _ | startWait _ => exact ⟨.inl ⟨rfl, rfl⟩, hf.set rfl (fun _ => rfl) trivial⟩
  | @own t pc _ hown =>
      refine ⟨.inl ⟨rfl, rfl⟩, hf.set rfl (fun _ => rfl) ?_⟩
      have hft := hf t
      generalize s.pc t = old at hown hft
      cases hown with
      | flags =>
          show s.word &&& ~~~condCounterMask = _
          rw [condCounterMask, BitVec.not_not]
      | load | retry => exact hft
      | read | unlocked | changed _ | locked => trivial
  | @swap t p fl _ hpc =>
      have hft := hf t
      rw [hpc] at hft
      have hnew : pulseWord s.word fl = s.word - condCounterIncrement := by
        rw [show fl = s.word &&& condSharedMask from hft, pulseWord_eq]
      refine ⟨.inr ⟨t, rfl, hnew, by rw [hpc]; rfl, ?_⟩, hf.set ?_ (fun _ => rfl) trivial⟩
      · show (Function.update s.pc t (.wake p) t).pending = 0
        rw [Function.update_self]
        rfl
      · show pulseWord s.word fl &&& condSharedMask = _
        rw [hnew, shared_sub]
  | sleep _ _ => exact ⟨.inl ⟨rfl, rfl⟩, hf⟩
  | interrupt _ | timeout _ _ => exact ⟨.inl ⟨rfl, rfl⟩, hf.resume _ _⟩
  | wake _ _ _ _ =>
      exact ⟨.inl ⟨rfl, rfl⟩, (hf.resume _ false).set rfl (fun _ => rfl) trivial⟩

omit [DecidableEq τ] in
/-- The counter of pulses grows by one where the word moves. -/
theorem Moves.pulses (h : Moves s s') :
    (s'.pulses = s.pulses ∧ s'.word = s.word) ∨
    (s'.pulses = s.pulses + 1 ∧ s'.word = s.word - condCounterIncrement) := by
  rcases h with ⟨hm, hw⟩ | ⟨t, hm, hw, -⟩
  · exact .inl ⟨by rw [State.pulses, hm]; rfl, hw⟩
  · exact .inr ⟨by rw [State.pulses, hm]; rfl, hw⟩

/-! ### Calls and moves -/

/-- `t` calls `signal` or `broadcast`. -/
def Event.isPulse (t : τ) : Event τ → Bool
  | .pulse u _ => u = t
  | _ => false

/-- How often it does. -/
def pulseCalls (t : τ) (es : List (Event τ)) : Nat := es.countP (Event.isPulse t)

theorem Own.pending {word : Word} {pc pc' : Pc} (h : Own word pc pc') :
    pc'.pending = pc.pending := by
  cases h <;> rfl

/-- A call of a pulse has the word still to move, and moves it once. -/
theorem Fires.counts (hsleep : SleepersWait s) (hf : Fires s e s') (t : τ) :
    s'.movers.count t + (s'.pc t).pending =
      s.movers.count t + (s.pc t).pending + (if e.isPulse t then 1 else 0) := by
  have hset : ∀ {c : State τ} {u : τ} {pc : Pc}, pc.pending = (c.pc u).pending →
      ((c.setPc u pc).pc t).pending = (c.pc t).pending := by
    intro c u pc hp
    show (Function.update c.pc u pc t).pending = _
    rw [Function.update_apply]
    split
    · next ht => rw [ht, hp]
    · rfl
  have hresume : ∀ {us : List τ} {b : Bool}, (∀ u ∈ us, s.asleep u = true) →
      ((s.resume us b).pc t).pending = (s.pc t).pending := by
    intro us b hus
    show (if t ∈ us then Pc.lockMutex b else s.pc t).pending = _
    split
    · next ht =>
        have hwait := hsleep.of_asleep (hus t ht)
        cases hpc : s.pc t <;> rw [hpc] at hwait <;> first | rfl | cases hwait
    · rfl
  cases hf with
  | @pulse u p hidle =>
      show _ + (Function.update s.pc u (.flags p) t).pending =
        _ + _ + (if decide (u = t) then 1 else 0)
      rw [Function.update_apply]
      by_cases ht : t = u
      · subst ht
        simp [hidle, Pc.pending, State.setPc]
      · simp [ht, Ne.symm ht, State.setPc]
  | startWait hidle => exact congrArg _ (hset (by rw [hidle]; rfl))
  | own _ hown => exact congrArg _ (hset hown.pending)
  | @swap u p fl _ hpc =>
      show (u :: s.movers).count t + (Function.update s.pc u (.wake p) t).pending = _ + _ + 0
      rw [Function.update_apply, List.count_cons]
      by_cases ht : t = u
      · subst ht
        simp [hpc, Pc.pending]
      · simp [ht, Ne.symm ht]
  | sleep _ _ => rfl
  | interrupt hasleep | timeout _ hasleep =>
      exact congrArg _ (hresume (by simpa using hasleep))
  | @wake u p woken hpc hmem _ _ =>
      have hus : ∀ v ∈ woken, s.asleep v = true := fun v hv => asleep_of_wakeable (hmem v hv)
      have hsame : (s.resume woken false).pc u = s.pc u :=
        resume_pc_of_awake (hsleep.awake (by rw [hpc]; rfl)) hus
      exact congrArg _ ((hset (by rw [hsame, hpc]; rfl)).trans (hresume hus))

end Step

/-! ## Runs -/

variable [DecidableEq τ] {s₁ s₂ s₃ : State τ}

theorem flagsOk_reachable {w₀ : Word} {es : List (Event τ)}
    (hrun : Run step always (init w₀) es s₁) : FlagsOk s₁ := by
  have hinit : FlagsOk (init w₀ : State τ) := fun _ => trivial
  refine hrun.invariant (I := FlagsOk) hinit ?_
  intro s e s' hf _ hs
  exact (step_moves hf hs).2

theorem sleepersWait_reachable {w₀ : Word} {es : List (Event τ)}
    (hrun : Run step always (init w₀) es s₁) : SleepersWait s₁ := by
  have hinit : SleepersWait (init w₀ : State τ) := fun _ hq => absurd hq List.not_mem_nil
  exact hrun.invariant hinit fun _ _ _ h _ hs => h.fires (step_fires hs)

/-- `done` are the pulses that complete from `s` to `s'`, by their threads: those
that were under way or called, but for those that have still to move the word. -/
structure Completed (s : State τ) (es : List (Event τ)) (s' : State τ) (done : List τ) : Prop where
  movers : s'.movers = done ++ s.movers
  calls : ∀ t, done.count t + (s'.pc t).pending = (s.pc t).pending + pulseCalls t es

/-- Every pulse that completes along a run moves the word by one counter step. -/
theorem run_moved (hf : FlagsOk s₂) (hsleep : SleepersWait s₂) {es : List (Event τ)}
    (hrun : Run step always s₂ es s₃) :
    FlagsOk s₃ ∧ SleepersWait s₃ ∧
      ∃ done, Completed s₂ es s₃ done ∧ s₃.word = moved s₂.word done.length := by
  induction hrun with
  | nil =>
      refine ⟨hf, hsleep, [], ⟨rfl, fun t => ?_⟩, (moved_zero _).symm⟩
      rw [List.count_nil, Nat.zero_add]
      rfl
  | @snoc es s s' e _ _ hs ih =>
      obtain ⟨hfs, hsl, done, hdone, hword⟩ := ih
      obtain ⟨hmoves, hfs'⟩ := step_moves hfs hs
      have hcalls : ∀ t, pulseCalls t (es ++ [e]) =
          pulseCalls t es + (if e.isPulse t then 1 else 0) := by
        intro t
        rw [pulseCalls, List.countP_append, List.countP_singleton, pulseCalls]
      have hcount : ∀ t, s'.movers.count t + (s'.pc t).pending = s.movers.count t +
          (s.pc t).pending + (if e.isPulse t then 1 else 0) := (step_fires hs).counts hsl
      refine ⟨hfs', hsl.fires (step_fires hs), ?_⟩
      rcases hmoves with ⟨hm, hw⟩ | ⟨u, hm, hw, -⟩
      · refine ⟨done, ⟨hm.trans hdone.movers, fun t => ?_⟩, hw.trans hword⟩
        have ht := hcount t
        have hd := hdone.calls t
        rw [hm] at ht
        rw [hcalls t]
        omega
      · refine ⟨u :: done, ⟨by rw [hm, hdone.movers]; rfl, fun t => ?_⟩, ?_⟩
        · have ht := hcount t
          have hd := hdone.calls t
          rw [hm, List.count_cons] at ht
          rw [hcalls t, List.count_cons]
          omega
        · rw [hw, hword, List.length_cons, moved_succ]

/-- A waiter `w` reads the word, and `k` pulses complete before its futex
wait: all that are called meanwhile or were under way, but for those that are
still on their way to the word. The shared bit is still the one it saw, every
one of those pulses moved the word by one counter step, and the word is what
`w` read exactly when `k` is a multiple of 2 ^ 31; for any smaller positive
`k` the futex wait returns at once. -/
theorem cond_signal_not_missed {w₀ : Word} {w : τ} {timed : Bool} {es₁ es₂ : List (Event τ)}
    (hrun₁ : Run step always (init w₀) es₁ s₁) (hread : s₁.pc w = .read timed)
    (hstep : step s₁ (.step w) = some s₂) (hrun₂ : Run step always s₂ es₂ s₃)
    (hbefore : s₃.pc w = .unlockMutex timed s₁.word ∨ s₃.pc w = .wait timed s₁.word) :
    ∃ done, Completed s₂ es₂ s₃ done ∧
      s₃.word &&& condSharedMask = s₁.word &&& condSharedMask ∧
      s₃.word = moved s₁.word done.length ∧
      (∀ e s', step s₃ e = some s' → Moves s₃ s') ∧
      (s₃.word = s₁.word ↔ 2 ^ 31 ∣ done.length) ∧
      (0 < done.length → done.length < 2 ^ 31 → s₃.asleep w = false →
        ∃ s', step s₃ (.step w) = some s' ∧ s'.asleep w = false ∧
          (s₃.pc w = .wait timed s₁.word → s'.pc w = .lockMutex false)) := by
  have hf₁ := flagsOk_reachable hrun₁
  have hsl₁ := sleepersWait_reachable hrun₁
  obtain ⟨-, hf₂⟩ := step_moves hf₁ hstep
  have hword : s₂.word = s₁.word := by
    cases step_fires hstep with
    | own _ _ | sleep _ _ => rfl
    | swap _ hpc =>
        rw [hread] at hpc
        cases hpc
  obtain ⟨hf₃, -, done, hdone, hmoved⟩ :=
    run_moved hf₂ (hsl₁.fires (step_fires hstep)) hrun₂
  rw [hword] at hmoved
  refine ⟨done, hdone, by rw [hmoved, moved_shared], hmoved,
    fun e s' hs => (step_moves hf₃ hs).1, by rw [hmoved, moved_eq_iff], ?_⟩
  intro hpos hlt hawake
  have hne : s₃.word ≠ s₁.word := by
    rw [hmoved, Ne, moved_eq_iff]
    exact Nat.not_dvd_of_pos_of_lt hpos hlt
  have hstepped : ∀ {s'}, stepThread s₃ w = some s' → step s₃ (.step w) = some s' := by
    intro s' hs
    simp only [step, hawake, Bool.false_eq_true, if_false, hs]
  rcases hbefore with hpc | hpc
  · refine ⟨s₃.setPc w (.wait timed s₁.word), hstepped (by rw [stepThread, hpc]), hawake, ?_⟩
    rw [hpc]
    exact nofun
  · refine ⟨s₃.setPc w (.lockMutex false), hstepped ?_, hawake,
      fun _ => Function.update_self ..⟩
    simp only [stepThread, hpc, if_neg hne]

/-- Thread 0 reads a shared condition word and lets go of its mutex; thread 1
signals before it reaches its futex wait. -/
theorem cond_signal_not_missed_once :
    ∃ s s' : State (Fin 2), s.pc 0 = .wait false 1#32 ∧ s.movers = [1] ∧
      s.word = 0xffffffff#32 ∧ step s (.step 0) = some s' ∧ s'.pc 0 = .lockMutex false := by
  have hs₁ : (runEvents step (init 1#32 : State (Fin 2)) [.startWait 0 false]).isSome := rfl
  have hrun₁ : Run step always (init 1#32 : State (Fin 2)) [.startWait 0 false] _ :=
    Run.of_runEvents (fun _ _ _ => trivial) (Option.some_get hs₁).symm
  have hs₂ : (step (Option.get _ hs₁) (.step 0)).isSome := rfl
  have hs₃ : (runEvents step (Option.get _ hs₂)
      [.step 0, .pulse 1 .signal, .step 1, .step 1, .step 1]).isSome := rfl
  have hrun₂ : Run step always (Option.get _ hs₂) _ _ :=
    Run.of_runEvents (fun _ _ _ => trivial) (Option.some_get hs₃).symm
  obtain ⟨done, hdone, -, hword, -, -, hawake⟩ :=
    cond_signal_not_missed hrun₁ rfl (Option.some_get hs₂).symm hrun₂ (.inr rfl)
  obtain rfl : [1] = done := hdone.movers.trans (List.append_nil done)
  have hmoved : moved 1#32 1 = 0xffffffff#32 := by decide
  obtain ⟨s', hs, -, hgoes⟩ := hawake Nat.one_pos (show 1 < 2 ^ 31 by decide) rfl
  exact ⟨_, s', rfl, rfl, hword.trans hmoved, hs, hgoes rfl⟩

end Pisces.Cond
