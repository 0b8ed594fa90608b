import Pisces.Mutex.Hold

/-!
# Destroying a mutex

`pthread_mutex_destroy` uses trylock "to ensure that the mutex value is valid
and is not already locked". For a mutex that somebody else holds that is right,
and for one of the caller's own if it is normal or errorcheck: trylock fails and
has not touched the word. But trylock of a recursive mutex by its owner is one
more level of the lock, so an owner can destroy a mutex that it holds, unless it
holds it so often that the counter is full.
-/

namespace Pisces.Mutex

open OwnedLock Pisces.Lib

/-- The steps of a call that nobody interrupts, at most so many, to its return. -/
def Pc.finish (tid : Word) : Nat → Word → Pc → Option (Ret × Word)
  | 0, _, _ => none
  | n + 1, w, pc =>
      match pc.step tid w with
      | some (w', .ret _ r) => some (r, w')
      | some (w', .goto pc') => Pc.finish tid n w' pc'
      | _ => none

/-- `pthread_mutex_trylock_impl` reads the word and makes one exchange at most. -/
def pthreadMutexTrylockImpl (tid w : Word) : Option (Ret × Word) :=
  Pc.finish tid 2 w (.enter .trylock)

/-- The result of `pthread_mutex_destroy` and the word it leaves. -/
def pthreadMutexDestroy (tid w : Word) : Option (Ret × Word) := do
  let (ret, w') ← pthreadMutexTrylockImpl tid w
  if ret ≠ .ok then return (ret, w')
  return (.ok, 0xdead10cc#32)

variable {τ : Type} {cfg : Config τ} {ty : MutexType} {pshared : Bool} {w : Word}

/-- Destroying succeeds exactly if nobody holds the mutex, and otherwise leaves
the word alone. -/
def DestroysUnlocked (h : Option (τ × Nat)) (w : Word) (r : Ret) (w' : Word) : Prop :=
  (r = .ok ↔ h = none) ∧ (r ≠ .ok → w' = w)

/-! ## trylock on its own -/

theorem trylock_normal (tid : Word) (st : NState) :
    pthreadMutexTrylockImpl tid (st.word pshared) =
      if st = .unlocked then some (.ok, NState.locked.word pshared)
      else some (.ebusy, st.word pshared) := by
  have hd : dispatch .trylock tid (st.word pshared) = .goto (.nTry (sharedWord pshared)) := by
    simp only [dispatch, NState.word_type, if_pos, NState.word_shared]
  have hcmp : (st.word pshared = sharedWord pshared ||| mutexStateBitsUnlocked) ↔
      st = .unlocked := @NState.word_inj pshared st .unlocked
  simp only [pthreadMutexTrylockImpl, Pc.finish, Pc.step, hd, bionicCmpxchg, hcmp]
  by_cases hst : st = .unlocked
  · simp only [if_pos hst]
    rfl
  · simp only [if_neg hst]

/-- The first read of trylock on a recursive or errorcheck mutex. -/
theorem dispatch_trylock (ht : cfg.TidsOk) (hty : ty ≠ .normal) {a : OwnedLock τ}
    (hd : Decodes cfg ty pshared w a) (t : τ) :
    (a.OwnedBy t → dispatch .trylock (cfg.tid t) w =
      recursiveIncrement .trylock w (mutexTypeBits ty)) ∧
    (¬ a.OwnedBy t → dispatch .trylock (cfg.tid t) w =
      .goto (.tryAcquire (pthreadMutexInit ty pshared))) := by
  have hnn : ¬ mutexTypeBits ty = mutexTypeBits .normal := by
    cases ty with
    | normal => exact absurd rfl hty
    | recursive | errorcheck => decide
  have hor := type_or_shared ht hd
  rw [hd.type_bits ht] at hor
  simp only [dispatch, hd.type_bits ht, if_neg hnn, hor, ← hd.owner_iff ht t,
    show mutexStateBitsUnlocked = 0#32 from rfl, BitVec.or_zero]
  exact ⟨fun ho => if_pos ho, fun ho => if_neg ho⟩

theorem trylock_free (ht : cfg.TidsOk) (hty : ty ≠ .normal)
    (hd : Decodes cfg ty pshared w .free) (t : τ) :
    ∃ w', pthreadMutexTrylockImpl (cfg.tid t) w = some (.ok, w') := by
  have hdis := (dispatch_trylock ht hty hd t).2 (not_ownedBy_free t)
  have hw : w = pthreadMutexInit ty pshared := hd
  simp only [pthreadMutexTrylockImpl, Pc.finish, Pc.step, hdis, bionicCmpxchg, if_pos hw]
  exact ⟨_, rfl⟩

theorem trylock_busy (ht : cfg.TidsOk) (hty : ty ≠ .normal) {t u : τ} {c : Fin 2048}
    (hd : Decodes cfg ty pshared w (.held u c)) (hu : t ≠ u) :
    pthreadMutexTrylockImpl (cfg.tid t) w = some (.ebusy, w) := by
  have hdis := (dispatch_trylock ht hty hd t).2 fun ho => hu (ownedBy_held.mp ho)
  simp only [pthreadMutexTrylockImpl, Pc.finish, Pc.step, hdis, bionicCmpxchg,
    if_neg (hd.held_ne_init ht)]

/-- The owner's trylock is one level more, and fails only if it cannot be. -/
theorem trylock_own (ht : cfg.TidsOk) (hty : ty ≠ .normal) {t : τ} {c : Fin 2048}
    (hd : Decodes cfg ty pshared w (.held t c)) :
    ∃ r w', pthreadMutexTrylockImpl (cfg.tid t) w = some (r, w') ∧
      (r = .ok ↔ ty = .recursive ∧ c.val + 1 < 2048) ∧ (r ≠ .ok → w' = w) := by
  have hdis := (dispatch_trylock ht hty hd t).1 (ownedBy_held.mpr rfl)
  simp only [pthreadMutexTrylockImpl, Pc.finish, Pc.step, hdis]
  cases ty with
  | normal => exact absurd rfl hty
  | errorcheck => exact ⟨.edeadlk, w, rfl, by simp, fun _ => rfl⟩
  | recursive =>
      have hne : ¬ mutexTypeBits .recursive = mutexTypeBits .errorcheck := by decide
      have hcnt := hd.counter_bits ht
      have hc := c.isLt
      by_cases hfull : c.val = 2047
      · have hov : mutexCounterBitsWillOverflow w = true := by
          rw [counterWillOverflow_iff, hcnt, hfull]
        simp only [recursiveIncrement, if_neg hne, if_pos hov]
        exact ⟨.eagain, w, rfl, by simp [hfull], fun _ => rfl⟩
      · have hov : ¬ mutexCounterBitsWillOverflow w = true := by
          rw [counterWillOverflow_iff, hcnt]
          exact hfull
        simp only [recursiveIncrement, if_neg hne, if_neg hov, bionicCmpxchg]
        exact ⟨.ok, _, rfl, by simp; omega, fun hno => absurd rfl hno⟩

/-! ## Destroying -/

theorem destroy_of_ok {tid w' : Word} (h : pthreadMutexTrylockImpl tid w = some (.ok, w')) :
    pthreadMutexDestroy tid w = some (.ok, 0xdead10cc#32) := by
  simp [pthreadMutexDestroy, h]

theorem destroy_of_error {tid w' : Word} {r : Ret} (hr : r ≠ .ok)
    (h : pthreadMutexTrylockImpl tid w = some (r, w')) :
    pthreadMutexDestroy tid w = some (r, w') := by
  simp [pthreadMutexDestroy, h, hr]

/-- The result is that of trylock, and the word is what trylock left of it, unless
it succeeded. -/
theorem destroy_trylock {tid w' : Word} {r : Ret}
    (h : pthreadMutexTrylockImpl tid w = some (r, w')) (hw : r ≠ .ok → w' = w) :
    ∃ w'', pthreadMutexDestroy tid w = some (r, w'') ∧ (r ≠ .ok → w'' = w) := by
  by_cases hr : r = .ok
  · subst hr
    exact ⟨_, destroy_of_ok h, fun hno => absurd rfl hno⟩
  · exact ⟨w', destroy_of_error hr h, hw⟩

theorem destroy_normal {st : NState} {h : Option (τ × Nat)} (tid : Word)
    (hfree : st = .unlocked ↔ h = none) :
    ∃ r w', pthreadMutexDestroy tid (st.word pshared) = some (r, w') ∧
      DestroysUnlocked h (st.word pshared) r w' := by
  have htry := @trylock_normal pshared tid st
  by_cases hst : st = .unlocked
  · rw [if_pos hst] at htry
    exact ⟨_, _, destroy_of_ok htry, ⟨fun _ => hfree.mp hst, fun _ => rfl⟩, by simp⟩
  · rw [if_neg hst] at htry
    have hheld : h ≠ none := fun hno => hst (hfree.mpr hno)
    exact ⟨_, _, destroy_of_error (by decide) htry, by simp [hheld], fun _ => rfl⟩

/-- The owner of a recursive mutex, with room in the counter, is the one caller
for whom it goes wrong. -/
theorem destroy_owned [DecidableEq τ] (ht : cfg.TidsOk) (hty : ty ≠ .normal) {a : OwnedLock τ}
    (hd : Decodes cfg ty pshared w a) (t : τ) :
    ∃ r w', pthreadMutexDestroy (cfg.tid t) w = some (r, w') ∧
      (DestroysUnlocked a.hold w r w' ↔
        ¬ (ty = .recursive ∧ ∃ d, a.hold = some (t, d) ∧ d < 2048)) := by
  cases a with
  | free =>
      obtain ⟨w', htry⟩ := trylock_free ht hty hd t
      refine ⟨_, _, destroy_of_ok htry, ?_⟩
      simp [DestroysUnlocked, OwnedLock.hold]
  | held u c =>
      by_cases hu : t = u
      · subst hu
        obtain ⟨r, w', htry, hok, hw⟩ := trylock_own ht hty hd
        obtain ⟨w'', hdes, hw''⟩ := destroy_trylock htry hw
        refine ⟨r, w'', hdes, ?_⟩
        have hroom : (∃ d, (OwnedLock.held t c).hold = some (t, d) ∧ d < 2048) ↔
            c.val + 1 < 2048 := by
          simp [OwnedLock.hold]
        rw [hroom, ← hok, DestroysUnlocked, and_iff_left hw'']
        simp [OwnedLock.hold]
      · refine ⟨_, _, destroy_of_error (by decide) (trylock_busy ht hty hd hu), ?_⟩
        simp [DestroysUnlocked, OwnedLock.hold, Ne.symm hu]

/-- In every state of every run, for every caller: destroying succeeds exactly if
nobody holds the mutex and leaves the word alone otherwise, except for a caller
that holds the mutex, recursive and with room in its counter. -/
theorem destroy_unlocked_iff [DecidableEq τ] {x : Tracked τ} {es : List (Event τ)}
    (ht : cfg.TidsOk) (hrun : Run (track cfg) (Orderly ty) (.init ty pshared) es x)
    (hquiet : ty = .normal → ∀ u, ¬ Stranger x u) (t : τ) :
    ∃ r w', pthreadMutexDestroy (cfg.tid t) x.state.word = some (r, w') ∧
      (DestroysUnlocked x.hold x.state.word r w' ↔
        ¬ (ty = .recursive ∧ ∃ d, x.hold = some (t, d) ∧ d < 2048)) := by
  by_cases hty : ty = .normal
  · subst hty
    rcases normHold_reachable hrun with hS | ⟨u, hI⟩
    · obtain ⟨st, hword, hfree⟩ := hS.shows
      rw [holder_eq_none] at hfree
      obtain ⟨r, w', hdes, hgood⟩ := @destroy_normal τ pshared st x.hold (cfg.tid t) hfree
      rw [← hword] at hdes hgood
      exact ⟨r, w', hdes, iff_of_true hgood (by simp)⟩
    · exact absurd ⟨hI.releasing, hI.stranger⟩ (hquiet rfl u)
  · obtain ⟨a, hinv, hhold⟩ := recHold_reachable ht hty hrun
    rw [hhold]
    exact destroy_owned ht hty hinv.decodes t

/-! ## An owner destroys its mutex -/

def oneThread : Config Unit where
  tid _ := 1#32
  waitTimedOut := -etimedout

theorem oneThread_tidsOk : oneThread.TidsOk where
  inj _ _ _ := rfl
  pos _ := show 1 ≤ (1#32).toNat by decide
  le _ := show (1#32).toNat ≤ 32768 by decide

/-- A lock that has returned. -/
def lockOnce : List (Event Unit) := [.call () .lock, .step (), .step ()]

/-- Held once, a recursive mutex is destroyed by its owner. -/
theorem owner_destroys :
    ∃ x, Run (track oneThread) (Orderly .recursive) (.init .recursive false) lockOnce x ∧
      x.hold = some ((), 1) ∧
      pthreadMutexDestroy (oneThread.tid ()) x.state.word = some (.ok, 0xdead10cc#32) ∧
      ¬ DestroysUnlocked x.hold x.state.word .ok 0xdead10cc#32 := by
  have hsome : (runEvents (track oneThread) (.init .recursive false) lockOnce).isSome := by decide
  have hrun : Run (track oneThread) (Orderly .recursive) (.init .recursive false) lockOnce _ :=
    Run.of_runEvents (fun _ _ _ hty => by cases hty) (Option.some_get hsome).symm
  have hheld : (Option.get _ hsome).hold = some ((), 1) := rfl
  have hword : (Option.get _ hsome).state.word = 0x00014001#32 := rfl
  refine ⟨_, hrun, hheld, by rw [hword]; decide, fun hgood => ?_⟩
  have hnone := hgood.1.mp rfl
  rw [hheld] at hnone
  cases hnone

/-- An errorcheck mutex is not. -/
theorem destroy_unlocked_iff_errorcheck :
    ∃ x, Run (track oneThread) (Orderly .errorcheck) (.init .errorcheck true) lockOnce x ∧
      x.hold = some ((), 1) ∧
      ∃ r w', pthreadMutexDestroy (oneThread.tid ()) x.state.word = some (r, w') ∧
        (DestroysUnlocked x.hold x.state.word r w' ↔
          ¬ (MutexType.errorcheck = .recursive ∧ ∃ d, x.hold = some ((), d) ∧ d < 2048)) := by
  have hsome : (runEvents (track oneThread) (.init .errorcheck true) lockOnce).isSome := by decide
  have hrun : Run (track oneThread) (Orderly .errorcheck) (.init .errorcheck true) lockOnce _ :=
    Run.of_runEvents (fun _ _ _ hty => by cases hty) (Option.some_get hsome).symm
  refine ⟨_, hrun, rfl, ?_⟩
  exact destroy_unlocked_iff oneThread_tidsOk hrun (fun hty => by cases hty) ()

end Pisces.Mutex
