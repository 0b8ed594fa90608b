import Pisces.Mutex.Word
import Pisces.Lib.Runs
import Mathlib.Data.List.Basic

/-!
# The mutex functions as interleaved atomic steps

`pthread_mutex_lock`, `_trylock`, `_lock_timeout_np` and `_unlock` share one
word and nothing else, so the model is a set of threads, each at a program
point of one of the four functions, that take turns. A program point is a
place where the next thing the code does to the shared word happens (a plain
read, a `__bionic_cmpxchg`, a `__bionic_swap`, an `__bionic_atomic_dec`, a
store, a futex call) or where it looks at the clock; its arguments are the
local variables the rest of the function still reads. Everything between two
such places is local and is done in the step that leads there.

The compare-and-exchange, the swap and the decrement are one step each: the
`ldrex`/`strex` loops of `bionic_atomic_arm.h` retry until the store is
atomic. Memory barriers have no effect on interleaved steps and do not appear.

The clock and the futex are the environment. A clock check may find the
deadline passed at any time; a futex wait falls asleep only if the word still
holds the given value, and a sleeper may be woken, return spuriously, or time
out. `pthread_mutex_lock_timeout_np` compares the result of its wait with
`ETIMEDOUT`; what `__futex_wait_ex` returns on a timeout is in a header
outside this tree, so that value is a parameter of the configuration.
-/

namespace Pisces.Mutex

open Pisces.Lib

/-- The four operations on a mutex. -/
inductive Op where
  | lock
  | trylock
  | lockTimeoutNp
  | unlock
  deriving DecidableEq, Repr

/-- The results the four functions return for a non-null mutex. -/
inductive Ret where
  | ok
  | ebusy
  | eagain
  | edeadlk
  | eperm
  deriving DecidableEq, Repr

/-- Where a thread is. The points whose names start with `n` belong to
`_normal_lock`, `_normal_unlock` and the normal branches of the other two. -/
inductive Pc where
  /-- Outside the four functions. -/
  | idle
  /-- At `mvalue = mutex->value`, the first line of every one of them. -/
  | enter (op : Op)
  /-- `__bionic_cmpxchg(unlocked, locked_uncontended, ..)` -/
  | nLock (op : Op) (shared : Word)
  /-- `while (__bionic_swap(locked_contended, ..) != unlocked)` -/
  | nSwap (op : Op) (shared : Word)
  /-- The clock check of the timed loop. -/
  | nClock (shared : Word)
  /-- `__futex_wait_ex(.., locked_contended, ..)` -/
  | nWait (op : Op) (shared : Word)
  /-- The single `cmpxchg` of `trylock`. -/
  | nTry (shared : Word)
  /-- `__bionic_atomic_dec` -/
  | nDec (shared : Word)
  /-- `mutex->value = shared` -/
  | nStore (shared : Word)
  /-- `__futex_wake_ex(.., shared, 1)` -/
  | nWake (shared : Word)
  /-- The `cmpxchg` of `_recursive_increment`. -/
  | incr (op : Op) (mvalue : Word)
  /-- Its reload, after another thread changed the low bits. -/
  | incrReload (op : Op)
  /-- The quick `cmpxchg` from the unlocked word to state 1. -/
  | quick (op : Op) (mtype : Word)
  /-- `mvalue = mutex->value`, then back to the head of the loop. -/
  | reload (op : Op) (mtype : Word)
  /-- The `cmpxchg` from the unlocked word to state 2. -/
  | acquire (op : Op) (mtype : Word)
  /-- The clock check after that `cmpxchg` failed. -/
  | acquireClock (mtype : Word)
  /-- The `cmpxchg` that flips state 1 to state 2. -/
  | flip (op : Op) (mtype mvalue : Word)
  /-- The timed loop's reload after that `cmpxchg` failed. -/
  | flipReload (mtype : Word)
  /-- The clock check before the timed wait. -/
  | clock (mtype mvalue : Word)
  /-- `__futex_wait_ex(.., mvalue, ..)` -/
  | wait (op : Op) (mtype mvalue : Word)
  /-- The single `cmpxchg` of `trylock`. -/
  | tryAcquire (mtype : Word)
  /-- The `cmpxchg` that takes one from the counter in `unlock`. -/
  | dec (mvalue : Word)
  /-- Its reload. -/
  | decReload
  /-- `__bionic_swap(mtype | shared | MUTEX_STATE_BITS_UNLOCKED, ..)` -/
  | swap (newval shared : Word)
  /-- `__futex_wake_ex(.., shared, 1)` -/
  | wake (shared : Word)
  deriving DecidableEq, Repr

/-- What a thread does after its step: go on, return, or fall asleep in the
futex wait it is at. -/
inductive Next where
  | goto (pc : Pc)
  | ret (op : Op) (r : Ret)
  | sleep
  deriving DecidableEq, Repr

/-! ## The functions, between two steps -/

/-- `_recursive_increment`, up to its `cmpxchg`. -/
def recursiveIncrement (op : Op) (mvalue mtype : Word) : Next :=
  if mtype = mutexTypeBits .errorcheck then .ret op .edeadlk
  else if mutexCounterBitsWillOverflow mvalue then .ret op .eagain
  else .goto (.incr op mvalue)

/-- The head of the `for (;;)` loop in `lock` and in `lock_timeout_np`. The
two loops differ once the word is neither unlocked nor uncontended: the timed
one looks at the clock, the other goes straight to the wait. -/
def lockLoop (op : Op) (mtype mvalue : Word) : Pc :=
  if mvalue = mtype then .acquire op mtype
  else if mutexStateBitsIsLockedUncontended mvalue then .flip op mtype mvalue
  else if op = .lockTimeoutNp then .clock mtype mvalue
  else .wait op mtype mvalue

/-- Each function from its first read up to its next step. -/
def dispatch (op : Op) (tid mvalue : Word) : Next :=
  let mtype := mvalue &&& mutexTypeMask
  let shared := mvalue &&& mutexSharedMask
  if mtype = mutexTypeBits .normal then
    match op with
    | .lock | .lockTimeoutNp => .goto (.nLock op shared)
    | .trylock => .goto (.nTry shared)
    | .unlock => .goto (.nDec shared)
  else match op with
    | .unlock =>
        if tid ≠ mutexOwnerFromBits mvalue then .ret .unlock .eperm
        else if !mutexCounterBitsIsZero mvalue then .goto (.dec mvalue)
        else .goto (.swap (mtype ||| shared ||| mutexStateBitsUnlocked) shared)
    | .trylock =>
        if tid = mutexOwnerFromBits mvalue then recursiveIncrement op mvalue mtype
        else .goto (.tryAcquire (mtype ||| shared ||| mutexStateBitsUnlocked))
    | .lock | .lockTimeoutNp =>
        if tid = mutexOwnerFromBits mvalue then recursiveIncrement op mvalue mtype
        else if mvalue = mtype ||| shared then .goto (.quick op (mtype ||| shared))
        else .goto (lockLoop op (mtype ||| shared) mvalue)

/-- `__bionic_cmpxchg(old, new, ..)` and what the caller does next. -/
def bionicCmpxchg (old new w : Word) (ok fail : Next) : Word × Next :=
  if w = old then (new, ok) else (w, fail)

/-- The word a thread stores to own the mutex. -/
def ownedBy (tid mtype state : Word) : Word := mutexOwnerToBits tid ||| mtype ||| state

/-- One atomic step of a thread that is awake: the new word and what comes
next. At a clock check this is the check that finds time left. The two futex
wakes pick a sleeper and are steps of the whole state, not of a thread. -/
def Pc.step (tid w : Word) : Pc → Option (Word × Next)
  | .idle => none
  | .enter op => some (w, dispatch op tid w)
  | .nLock op shared =>
      some (bionicCmpxchg (shared ||| mutexStateBitsUnlocked)
        (shared ||| mutexStateBitsLockedUncontended) w (.ret op .ok) (.goto (.nSwap op shared)))
  | .nSwap op shared =>
      some (shared ||| mutexStateBitsLockedContended,
        if w = shared ||| mutexStateBitsUnlocked then .ret op .ok
        else if op = .lockTimeoutNp then .goto (.nClock shared)
        else .goto (.nWait op shared))
  | .nClock shared => some (w, .goto (.nWait .lockTimeoutNp shared))
  | .nWait op shared =>
      some (w, if w = shared ||| mutexStateBitsLockedContended then .sleep
        else .goto (.nSwap op shared))
  | .nTry shared =>
      some (bionicCmpxchg (shared ||| mutexStateBitsUnlocked)
        (shared ||| mutexStateBitsLockedUncontended) w (.ret .trylock .ok)
        (.ret .trylock .ebusy))
  | .nDec shared =>
      some (w - 1#32,
        if w ≠ shared ||| mutexStateBitsLockedUncontended then .goto (.nStore shared)
        else .ret .unlock .ok)
  | .nStore shared => some (shared, .goto (.nWake shared))
  | .nWake _ => none
  | .incr op mvalue =>
      some (bionicCmpxchg mvalue (mvalue + mutexCounterBitsOne) w (.ret op .ok)
        (.goto (.incrReload op)))
  | .incrReload op => some (w, .goto (.incr op w))
  | .quick op mtype =>
      some (bionicCmpxchg mtype (ownedBy tid mtype mutexStateBitsLockedUncontended) w
        (.ret op .ok) (.goto (.reload op mtype)))
  | .reload op mtype => some (w, .goto (lockLoop op mtype w))
  | .acquire op mtype =>
      some (bionicCmpxchg mtype (ownedBy tid mtype mutexStateBitsLockedContended) w
        (.ret op .ok)
        (if op = .lockTimeoutNp then .goto (.acquireClock mtype) else .goto (.reload op mtype)))
  | .acquireClock mtype => some (w, .goto (.reload .lockTimeoutNp mtype))
  | .flip op mtype mvalue =>
      some (bionicCmpxchg mvalue (mutexStateBitsFlipContention mvalue) w
        (if op = .lockTimeoutNp then .goto (.clock mtype (mutexStateBitsFlipContention mvalue))
          else .goto (.wait op mtype (mutexStateBitsFlipContention mvalue)))
        (if op = .lockTimeoutNp then .goto (.flipReload mtype) else .goto (.reload op mtype)))
  | .flipReload mtype => some (w, .goto (.clock mtype w))
  | .clock mtype mvalue =>
      some (w, if mutexStateBitsIsLockedContended mvalue then
          .goto (.wait .lockTimeoutNp mtype mvalue)
        else .goto (lockLoop .lockTimeoutNp mtype mvalue))
  | .wait op mtype mvalue =>
      some (w, if w = mvalue then .sleep else .goto (.reload op mtype))
  | .tryAcquire mtype =>
      some (bionicCmpxchg mtype (ownedBy tid mtype mutexStateBitsLockedUncontended) w
        (.ret .trylock .ok) (.ret .trylock .ebusy))
  | .dec mvalue =>
      some (bionicCmpxchg mvalue (mvalue - mutexCounterBitsOne) w (.ret .unlock .ok)
        (.goto .decReload))
  | .decReload => some (w, .goto (.dec w))
  | .swap newval shared =>
      some (newval, if mutexStateBitsIsLockedContended w then .goto (.wake shared)
        else .ret .unlock .ok)
  | .wake _ => none

/-! ## The whole state -/

/-- What the model takes from outside: each thread's `__get_thread()->tid`,
and the value `__futex_wait_ex` returns when its timeout passes. -/
structure Config (τ : Type) where
  tid : τ → Word
  waitTimedOut : Int

def etimedout : Int := 110

/-- The shared word, every thread's program point, the threads asleep in a
futex wait on the word, and the calls that have returned, newest first. -/
structure State (τ : Type) where
  word : Word
  pc : τ → Pc
  queue : List τ
  log : List (τ × Op × Ret)

/-- What can happen next. -/
inductive Event (τ : Type) where
  /-- A thread outside the functions calls one. -/
  | call (t : τ) (op : Op)
  /-- An awake thread takes its next atomic step. -/
  | step (t : τ)
  /-- A thread's clock check finds the deadline passed. -/
  | expire (t : τ)
  /-- A thread's `__futex_wake_ex(.., 1)`, and the sleeper it wakes, if any. -/
  | wake (t : τ) (woken : Option τ)
  /-- A sleeper returns without having been woken. -/
  | interrupt (t : τ)
  /-- A timed sleeper's timeout passes. -/
  | timeout (t : τ)
  deriving DecidableEq, Repr

variable {τ : Type} [DecidableEq τ]

/-- Moves one thread, and nothing else. -/
def State.setPc (s : State τ) (t : τ) (pc : Pc) : State τ :=
  { s with pc := Function.update s.pc t pc }

/-- A thread leaves a function with a result. -/
def State.ret (s : State τ) (t : τ) (op : Op) (r : Ret) : State τ :=
  { s.setPc t .idle with log := (t, op, r) :: s.log }

/-- The effect of a thread's own step. -/
def State.advance (s : State τ) (t : τ) (w : Word) : Next → State τ
  | .goto pc => { s.setPc t pc with word := w }
  | .ret op r => { s.ret t op r with word := w }
  | .sleep => { s with word := w, queue := t :: s.queue }

/-- Where a thread goes on when its futex wait returns, whatever the reason. -/
def Pc.afterWait : Pc → Option Pc
  | .nWait op shared => some (.nSwap op shared)
  | .wait op mtype _ => some (.reload op mtype)
  | _ => none

/-- The timed waits. -/
def Pc.isTimedWait : Pc → Bool
  | .nWait op _ | .wait op _ _ => op == .lockTimeoutNp
  | _ => false

/-- Process-shared and private futex calls use different opcodes and do not
see each other; this is which one a wait used. -/
def Pc.waitsShared : Pc → Bool
  | .nWait _ shared => shared != 0#32
  | .wait _ mtype _ => (mtype &&& mutexSharedMask) != 0#32
  | _ => false

/-- The flag a futex wake is about to use. -/
def Pc.wakesShared : Pc → Option Bool
  | .nWake shared | .wake shared => some (shared != 0#32)
  | _ => none

/-- The clock checks. -/
def Pc.isClock : Pc → Bool
  | .nClock _ | .acquireClock _ | .clock _ _ => true
  | _ => false

/-- A sleeper leaves the queue and goes on after its wait. -/
def State.resume (s : State τ) (u : τ) (pc : Pc) : State τ :=
  { s.setPc u pc with queue := s.queue.erase u }

def step (cfg : Config τ) (s : State τ) : Event τ → Option (State τ)
  | .call t op => if s.pc t = .idle then some (s.setPc t (.enter op)) else none
  | .step t =>
      if t ∈ s.queue then none
      else ((s.pc t).step (cfg.tid t) s.word).map fun r => s.advance t r.1 r.2
  | .expire t =>
      if t ∉ s.queue ∧ (s.pc t).isClock then some (s.ret t .lockTimeoutNp .ebusy) else none
  | .wake t none =>
      match (s.pc t).wakesShared with
      | none => none
      | some sh =>
          if ∃ u ∈ s.queue, (s.pc u).waitsShared = sh then none
          else some (s.ret t .unlock .ok)
  | .wake t (some u) =>
      match (s.pc t).wakesShared, (s.pc u).afterWait with
      | some sh, some pc =>
          if u ∈ s.queue ∧ (s.pc u).waitsShared = sh then
            some ((s.resume u pc).ret t .unlock .ok)
          else none
      | _, _ => none
  | .interrupt u =>
      match (s.pc u).afterWait with
      | some pc => if u ∈ s.queue then some (s.resume u pc) else none
      | none => none
  | .timeout u =>
      match (s.pc u).afterWait with
      | some pc =>
          if u ∈ s.queue ∧ (s.pc u).isTimedWait then
            match s.pc u with
            -- the normal loop does not look at the result of its wait
            | .nWait _ _ => some (s.resume u pc)
            | _ =>
                if cfg.waitTimedOut = etimedout then
                  some ((s.resume u pc).ret u .lockTimeoutNp .ebusy)
                else some (s.resume u pc)
          else none
      | none => none

/-- A mutex fresh from `pthread_mutex_init`, every thread outside. -/
def init (ty : MutexType) (pshared : Bool) : State τ :=
  { word := pthreadMutexInit ty pshared, pc := fun _ => .idle, queue := [], log := [] }

/-- How often `t` has come back from `lock`, `trylock` or `lock_timeout_np`
with success. -/
def State.locks (s : State τ) (t : τ) : Nat :=
  s.log.countP fun c => c.1 = t ∧ c.2.1 ≠ .unlock ∧ c.2.2 = .ok

/-- How often `t` has come back from `unlock` with success. -/
def State.unlocks (s : State τ) (t : τ) : Nat :=
  s.log.countP fun c => c.1 = t ∧ c.2.1 = .unlock ∧ c.2.2 = .ok

/-- The thread an event belongs to. -/
def Event.actor : Event τ → τ
  | .call t _ | .step t | .expire t | .wake t _ | .interrupt t | .timeout t => t

end Pisces.Mutex
