import Pisces.Mutex.Recursive
import Pisces.Mutex.Sleep

/-!
# Sleepers on a recursive or errorcheck mutex

While the word's state is 2 the owner's `unlock` will see it and make a futex
wake. The swap of `unlock` takes the duty to wake somebody out of the word,
the wake hands it to the woken sleeper, and a thread in the contended loop
gets rid of it by putting state 2 back, either by taking the lock in state 2
or by flipping 1 to 2 before it goes to sleep.

`lock` leaves its loop in no other way. `lock_timeout_np` does: at both of its
clock checks it may return `EBUSY` while the word is in state 0 or 1, and then
nobody has the duty any more. `lost_wakeup` is such a run. `HandsOver` is the
amount of care that is missing, a condition on the state in which a deadline
is found to have passed, and `no_stranded_sleeper` shows that no run whose
expiries meet it strands anyone.
-/

namespace Pisces.Mutex

open OwnedLock Pisces.Lib

variable {τ : Type}

/-- In the `for (;;)` loop of `lock` or `lock_timeout_np`. -/
def Pc.inLoop : Pc → Bool
  | .reload _ _ | .acquire _ _ | .acquireClock _ | .flip _ _ _ | .flipReload _ | .clock _ _
  | .wait _ _ _ => true
  | _ => false

/-- At a futex wait of a recursive or errorcheck mutex. -/
def Pc.isWait : Pc → Bool
  | .wait _ _ _ => true
  | _ => false

/-- In `unlock`, with the futex wake still to come. -/
def Pc.isWake : Pc → Bool
  | .wake _ => true
  | _ => false

theorem Pc.isWait_iff {pc : Pc} : pc.isWait = true ↔ ∃ op m mvalue, pc = .wait op m mvalue := by
  cases pc <;> simp [Pc.isWait]

theorem Pc.isWake_iff {pc : Pc} : pc.isWake = true ↔ ∃ sh, pc = .wake sh := by
  cases pc <;> simp [Pc.isWake]

/-- How recursive and errorcheck mutexes hand the duty around. -/
def ownedDiscipline : Discipline where
  waits := Pc.isWait
  awake := Pc.inLoop
  waking := Pc.isWake
  marked := mutexStateBitsIsLockedContended
  idle_awake := rfl
  idle_waking := rfl
  idle_waits := rfl
  waits_waking h := by obtain ⟨op, m, mvalue, rfl⟩ := Pc.isWait_iff.mp h; rfl
  waits_wakes h := by obtain ⟨op, m, mvalue, rfl⟩ := Pc.isWait_iff.mp h; nofun
  waits_resume h hres := by
    obtain ⟨op, m, mvalue, rfl⟩ := Pc.isWait_iff.mp h
    rw [Pc.afterWait, Option.some.injEq] at hres
    rw [← hres]
    rfl

/-- The mutex is unlocked, somebody sleeps on it, and every thread that does
not is outside the four functions. -/
def Stranded (ty : MutexType) (pshared : Bool) (s : State τ) : Prop :=
  s.word = pthreadMutexInit ty pshared ∧ s.queue ≠ [] ∧ ∀ t, t ∉ s.queue → s.pc t = .idle

/-! ## The duty along one thread's step -/

theorem lockLoop_inLoop (op : Op) (m mvalue : Word) : (lockLoop op m mvalue).inLoop = true := by
  rw [lockLoop]
  split
  · rfl
  · split
    · rfl
    · split <;> rfl

section OneThread

variable {cfg : Config τ} {ty : MutexType} {pshared : Bool} {w w' : Word} {a : OwnedLock τ}
  {t : τ} {pc : Pc} {nx : Next}

/-- A thread in the loop stays in it, or leaves the word in state 2. -/
theorem step_inLoop (ht : cfg.TidsOk) (hl : LocalOk ty pshared a t pc) (hin : pc.inLoop = true)
    (hs : pc.step (cfg.tid t) w = some (w', nx)) :
    w'.toNat % 4 = 2 ∨ (nx.pc pc).inLoop = true := by
  cases pc <;> simp only [Pc.inLoop, Bool.false_eq_true] at hin <;>
    rw [Pc.step, Option.some.injEq] at hs
  case reload op m =>
    obtain ⟨rfl, rfl⟩ := Prod.mk.inj hs
    exact .inr (lockLoop_inLoop op m _)
  case acquire op m =>
    rcases bionicCmpxchg_cases hs with ⟨-, rfl, rfl⟩ | ⟨-, rfl, rfl⟩
    · rw [hl.2.1]
      exact .inl (Decodes.acquire ht t (.inr rfl)).2
    · right
      split <;> rfl
  case flip op m mvalue =>
    rcases bionicCmpxchg_cases hs with ⟨-, rfl, rfl⟩ | ⟨-, rfl, rfl⟩
    · left
      rw [flipContention_toNat hl.2.2]
      have := hl.2.2
      omega
    · right
      split <;> rfl
  case acquireClock m | flipReload m =>
    obtain ⟨rfl, rfl⟩ := Prod.mk.inj hs
    exact .inr rfl
  case clock m mvalue =>
    obtain ⟨rfl, rfl⟩ := Prod.mk.inj hs
    right
    split
    · rfl
    · exact lockLoop_inLoop _ m mvalue
  case wait op m mvalue =>
    obtain ⟨rfl, rfl⟩ := Prod.mk.inj hs
    split
    · next hw => rw [hw]; exact .inl hl.2.2
    · exact .inr rfl

/-- A thread falls asleep only on a word in state 2. -/
theorem step_sleep (hl : LocalOk ty pshared a t pc)
    (hs : pc.step (cfg.tid t) w = some (w', .sleep)) : w'.toNat % 4 = 2 ∧ pc.isWait = true := by
  cases pc <;> rw [Pc.step] at hs
  case wait op m mvalue =>
    rw [Option.some.injEq] at hs
    obtain ⟨rfl, hsl⟩ := Prod.mk.inj hs
    split at hsl
    · next hw => rw [hw]; exact ⟨hl.2.2, rfl⟩
    · cases hsl
  case enter op =>
    rw [Option.some.injEq, Prod.mk.injEq] at hs
    have hne : dispatch op (cfg.tid t) w ≠ .sleep := by
      simp only [dispatch, recursiveIncrement]
      cases op <;> simp only [] <;> repeat' (first | split | simp)
    exact absurd hs.2 hne
  all_goals first
    | exact hl.elim
    | (simp only [bionicCmpxchg, Option.some.injEq, reduceCtorEq] at hs
       repeat' (split at hs)
       all_goals simp_all)

/-- A word in state 2 stays so, or its owner is in `unlock` with the wake
still to come. -/
theorem step_contended (hl : LocalOk ty pshared a t pc) (h2 : w.toNat % 4 = 2)
    (hs : pc.step (cfg.tid t) w = some (w', nx)) :
    w'.toNat % 4 = 2 ∨ ∃ sh, nx = .goto (.wake sh) := by
  have hfree : ∀ {m : Word}, m = pthreadMutexInit ty pshared → ¬ w = m := by
    rintro m rfl rfl
    rw [← lockWord_unlocked, lockWord_state (by omega) (by omega) (by omega)] at h2
    omega
  cases pc <;> rw [Pc.step] at hs
  case idle | wake _ => cases hs
  case nLock _ _ | nSwap _ _ | nClock _ | nWait _ _ | nTry _ | nDec _ | nStore _ | nWake _ =>
    exact hl.elim
  case quick op m | acquire op m =>
    rw [Option.some.injEq, bionicCmpxchg, if_neg (hfree hl.2.1)] at hs
    obtain ⟨rfl, -⟩ := Prod.mk.inj hs
    exact .inl h2
  case tryAcquire m =>
    rw [Option.some.injEq, bionicCmpxchg, if_neg (hfree hl.1)] at hs
    obtain ⟨rfl, -⟩ := Prod.mk.inj hs
    exact .inl h2
  case incr op mvalue =>
    left
    rcases bionicCmpxchg_cases (Option.some.inj hs) with ⟨hw, rfl, -⟩ | ⟨-, rfl, -⟩
    · rw [← hw, BitVec.toNat_add, show mutexCounterBitsOne.toNat = 4 from rfl]
      omega
    · exact h2
  case dec mvalue =>
    left
    rcases bionicCmpxchg_cases (Option.some.inj hs) with ⟨hw, rfl, -⟩ | ⟨-, rfl, -⟩
    · rw [← hw, BitVec.toNat_sub, show mutexCounterBitsOne.toNat = 4 from rfl]
      omega
    · exact h2
  case flip op m mvalue =>
    left
    rcases bionicCmpxchg_cases (Option.some.inj hs) with ⟨hw, -, -⟩ | ⟨-, rfl, -⟩
    · rw [← hw] at hl
      have := hl.2.2
      omega
    · exact h2
  case swap newval sh =>
    rw [Option.some.injEq, if_pos ((isLockedContended_iff w).mpr h2)] at hs
    exact .inr ⟨sh, (Prod.mk.inj hs).2.symm⟩
  all_goals
    rw [Option.some.injEq] at hs
    obtain ⟨rfl, -⟩ := Prod.mk.inj hs
    exact .inl h2

end OneThread

/-! ## The duty along a run -/

section Run

variable [DecidableEq τ] {cfg : Config τ} {ty : MutexType} {pshared : Bool} {s : State τ}
  {a : OwnedLock τ} {t : τ}

/-- A thread's own step keeps the duty. -/
theorem RecInv.sleep_advance (ht : cfg.TidsOk) (hinv : RecInv cfg ty pshared s a)
    (h : SleepInv ownedDiscipline s) {w : Word} {nx : Next} (hnq : t ∉ s.queue)
    (hs : (s.pc t).step (cfg.tid t) s.word = some (w, nx)) :
    SleepInv ownedDiscipline (s.advance t w nx) := by
  have hl := hinv.locals t
  refine h.advance hnq ?_ ?_
  · rintro rfl
    obtain ⟨h2, hwait⟩ := step_sleep hl hs
    exact ⟨hwait, (isLockedContended_iff w).mpr h2⟩
  · rintro (hmark | hin | hwk)
    · have h2 := (isLockedContended_iff s.word).mp hmark
      rcases step_contended hl h2 hs with h2' | ⟨sh, rfl⟩
      · exact .inl ((isLockedContended_iff w).mpr h2')
      · exact .inr (.inr rfl)
    · rcases step_inLoop ht hl hin hs with h2 | hin'
      · exact .inl ((isLockedContended_iff w).mpr h2)
      · exact .inr (.inl hin')
    · -- a futex wake is not a thread's own step
      obtain ⟨sh, hp⟩ := Pc.isWake_iff.mp hwk
      rw [hp] at hs
      cases hs

/-- A wake that finds nobody means that nobody sleeps: all waits and all wakes
on one word use the same futex opcode. -/
theorem queue_nil_of_wakeNone (hinv : RecInv cfg ty pshared s a)
    (h : SleepInv ownedDiscipline s) {sh : Bool}
    (hsh : (s.pc t).wakesShared = some sh)
    (hno : ∀ u ∈ s.queue, (s.pc u).waitsShared ≠ sh) : s.queue = [] := by
  obtain ⟨shared, hpc, hsd⟩ := (hinv.locals t).of_wakesShared hsh
  rw [hpc, Pc.wakesShared, Option.some.injEq, hsd] at hsh
  apply List.eq_nil_iff_forall_not_mem.mpr
  intro u hu
  obtain ⟨op, m, mvalue, hp⟩ := Pc.isWait_iff.mp (h.asleep u hu)
  have hl := hinv.locals u
  rw [hp] at hl
  refine hno u hu ?_
  rw [hp, Pc.waitsShared, hl.2.1.1, hsh]

/-- In every run whose expired deadlines hand the duty over, no state has the
mutex unlocked, a sleeper on it and every awake thread outside. -/
theorem no_stranded_sleeper (ht : cfg.TidsOk) (hty : ty ≠ .normal) {es : List (Event τ)}
    (hrun : Run (step cfg) (ExpiresSafely ownedDiscipline) (Mutex.init ty pshared) es s) :
    ¬ Stranded ty pshared s := by
  have hinv : (∃ a, RecInv cfg ty pshared s a) ∧ SleepInv ownedDiscipline s := by
    refine hrun.invariant
      (I := fun s => (∃ a, RecInv cfg ty pshared s a) ∧ SleepInv ownedDiscipline s)
      ⟨⟨.free, RecInv.init cfg ty pshared⟩, SleepInv.init ownedDiscipline ty pshared⟩ ?_
    rintro s e s' ⟨⟨a, hr⟩, hs⟩ hok hstep
    have hf := step_fires hstep
    obtain ⟨a', hr', -, -⟩ := fires_refines ht hty hr hf
    refine ⟨⟨a', hr'⟩, hs.fires hok hf ?_ ?_⟩
    · exact fun t w nx hnq hst => hr.sleep_advance ht hs hnq hst
    · exact fun t sh hsh hno => queue_nil_of_wakeNone hr hs hsh hno
  rintro ⟨hword, hne, hidle⟩
  have hmark : ownedDiscipline.marked s.word = false := by
    rw [hword]
    cases ty <;> cases pshared <;> decide
  obtain ⟨u, hnq, hin⟩ := hinv.2.someone_inside hne hmark
  exact hin (hidle u hnq)

end Run

/-! ## Two runs that give up -/

/-- Three threads with tids 1, 2 and 3. -/
def threeThreads : Config (Fin 3) where
  tid t := BitVec.ofNat 32 (t.val + 1)
  waitTimedOut := -etimedout

theorem threeThreads_tidsOk : threeThreads.TidsOk where
  inj t u h := by revert t u; decide
  pos := by decide
  le := by decide

/-- Thread 0 owns the mutex, thread 2 sleeps on it in state 2, and thread 1
finds its deadline passed at the clock check before its wait. -/
theorem no_stranded_sleeper_expired :
    ∃ es s, Run (step threeThreads) (ExpiresSafely ownedDiscipline)
        (Mutex.init .errorcheck true) es s ∧
      s.queue = [2] ∧ s.log.head? = some (1, .lockTimeoutNp, .ebusy) ∧
      ¬ Stranded .errorcheck true s := by
  have hsome : (runEvents (step threeThreads) (Mutex.init .errorcheck true)
      [.call 0 .lock, .step 0, .step 0, .call 2 .lock, .step 2, .step 2, .step 2,
        .call 1 .lockTimeoutNp, .step 1]).isSome := by decide
  have hbefore : Run (step threeThreads) (ExpiresSafely ownedDiscipline)
      (Mutex.init .errorcheck true) _ _ :=
    Run.of_runEvents (by simp [ExpiresSafely]) (Option.some_get hsome).symm
  have hexp : (step threeThreads (Option.get _ hsome) (.expire 1)).isSome := rfl
  have hcon : mutexStateBitsIsLockedContended (Option.get _ hsome).word = true := by
    rw [show (Option.get _ hsome).word = 0x0001a002#32 from rfl]
    decide
  have hover : ExpiresSafely ownedDiscipline (Option.get _ hsome) (.expire 1) :=
    Or.inr (Or.inl hcon)
  have hrun := hbefore.snoc hover (Option.some_get hexp).symm
  exact ⟨_, _, hrun, rfl, rfl, no_stranded_sleeper threeThreads_tidsOk (by decide) hrun⟩

/-- Thread 0 owns the mutex, thread 1 sleeps in `lock_timeout_np` and thread 2
in `lock`. Thread 0 unlocks and wakes thread 1, which reads the unlocked word. -/
def wakeTimedWaiter : List (Event (Fin 3)) :=
  [.call 0 .lock, .step 0, .step 0,
    .call 1 .lockTimeoutNp, .step 1, .step 1, .step 1, .step 1,
    .call 2 .lock, .step 2, .step 2,
    .call 0 .unlock, .step 0, .step 0, .wake 0 (some 1), .step 1]

/-- Thread 0 takes the mutex back on the uncontended path, thread 1 fails to
acquire it and finds its deadline passed, and thread 0 unlocks a word in
state 1, which wakes nobody. -/
def giveUp : List (Event (Fin 3)) :=
  [.call 0 .lock, .step 0, .step 0, .step 1, .expire 1, .call 0 .unlock, .step 0, .step 0]

/-- Thread 2 sleeps on an unlocked mutex and the other two are outside. -/
theorem lost_wakeup :
    ¬ ∀ (es : List (Event (Fin 3))) (s : State (Fin 3)),
      Run (step threeThreads) always (Mutex.init .recursive false) es s →
      ¬ (s.word = pthreadMutexInit .recursive false ∧
        ∃ u ∈ s.queue, ∀ t, t ≠ u → s.pc t = .idle) := by
  intro hclaim
  have hsome : (runEvents (step threeThreads) (Mutex.init .recursive false)
      (wakeTimedWaiter ++ giveUp)).isSome := by decide
  refine hclaim _ _ (Run.of_runEvents (fun _ _ _ => trivial) (Option.some_get hsome).symm)
    ⟨rfl, 2, List.mem_singleton.mpr rfl, ?_⟩
  intro t ht
  match t with
  | 0 => rfl
  | 1 => rfl
  | 2 => exact absurd rfl ht

end Pisces.Mutex
