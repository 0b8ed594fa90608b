import Pisces.Mutex.Owner

/-!
# A free mutex is got by whoever runs

Two threads that ask for the mutex can get into each other's way: each loop of
the code starts over when the word has changed. What can be said without a
scheduler is that nobody is kept out of a free mutex by what the others have
done before: a thread that is awake anywhere in an acquire, with whatever copies
of the word it has taken, needs five steps of its own at most.

The copies are the point. The timed loop goes back to its head with the copy it
has, not with a new one, if that is neither unlocked nor contended, and a copy
that was neither of the two nor uncontended would keep it there for ever.
`CopyOk` says that there is no such copy.
-/

namespace Pisces.Mutex

open Pisces.Lib OwnedLock

variable {τ : Type}

/-! ## A normal mutex -/

section Normal

variable {pshared : Bool} {tid : Word} {t : τ}

/-- The exchange of `lock` and `lock_timeout_np` finds the word unlocked. -/
theorem returns_nSwap (op : Op) :
    Returns tid 1 (NState.unlocked.word pshared) (.nSwap op (sharedWord pshared)) op .ok := by
  have hst : (Pc.nSwap op (sharedWord pshared)).step tid (NState.unlocked.word pshared) =
      some (NState.contended.word pshared, .ret op .ok) := by
    simp [Pc.step, NState.word, NState.bits]
  exact .ret hst

/-- Nobody falls asleep on an unlocked word. -/
theorem returns_nWait (op : Op) :
    Returns tid 2 (NState.unlocked.word pshared) (.nWait op (sharedWord pshared)) op .ok := by
  have hne : NState.unlocked.word pshared ≠
      sharedWord pshared ||| mutexStateBitsLockedContended := by
    show _ ≠ NState.contended.word pshared
    rw [Ne, NState.word_inj]
    decide
  have hst : (Pc.nWait op (sharedWord pshared)).step tid (NState.unlocked.word pshared) =
      some (NState.unlocked.word pshared, .goto (.nSwap op (sharedWord pshared))) := by
    rw [Pc.step, if_neg hne]
  exact .goto hst (returns_nSwap op)

theorem returns_nLock (op : Op) :
    Returns tid 1 (NState.unlocked.word pshared) (.nLock op (sharedWord pshared)) op .ok := by
  have hst : (Pc.nLock op (sharedWord pshared)).step tid (NState.unlocked.word pshared) =
      some (NState.locked.word pshared, .ret op .ok) := by
    simp [Pc.step, bionicCmpxchg, NState.word, NState.bits]
  exact .ret hst

theorem returns_nTry :
    Returns tid 1 (NState.unlocked.word pshared) (.nTry (sharedWord pshared)) .trylock .ok := by
  have hst : (Pc.nTry (sharedWord pshared)).step tid (NState.unlocked.word pshared) =
      some (NState.locked.word pshared, .ret .trylock .ok) := by
    simp [Pc.step, bionicCmpxchg, NState.word, NState.bits]
  exact .ret hst

theorem normal_returns {pc : Pc} {op : Op} (hl : NLocalOk pshared none t pc)
    (hop : pc.op = some op) (hacq : op ≠ .unlock) :
    ∃ n ≤ 5, Returns tid n (NState.unlocked.word pshared) pc op .ok := by
  cases pc with
  | idle => cases hop
  | enter op' =>
      obtain rfl := Option.some.inj hop
      have hst : (Pc.enter op').step tid (NState.unlocked.word pshared) =
          some (NState.unlocked.word pshared, dispatch op' tid (NState.unlocked.word pshared)) :=
        rfl
      simp only [dispatch, NState.word_type, if_true, NState.word_shared] at hst
      cases op' with
      | lock | lockTimeoutNp => exact ⟨2, by decide, .goto hst (returns_nLock _)⟩
      | trylock => exact ⟨2, by decide, .goto hst returns_nTry⟩
      | unlock => exact absurd rfl hacq
  | nLock op' sh =>
      obtain rfl := Option.some.inj hop
      obtain ⟨-, rfl⟩ := hl
      exact ⟨1, by decide, returns_nLock _⟩
  | nSwap op' sh =>
      obtain rfl := Option.some.inj hop
      obtain ⟨-, rfl⟩ := hl
      exact ⟨1, by decide, returns_nSwap _⟩
  | nWait op' sh =>
      obtain rfl := Option.some.inj hop
      obtain ⟨-, rfl⟩ := hl
      exact ⟨2, by decide, returns_nWait _⟩
  | nClock sh =>
      obtain rfl := Option.some.inj hop
      subst hl
      exact ⟨3, by decide, .goto rfl (returns_nWait _)⟩
  | nTry sh =>
      obtain rfl := Option.some.inj hop
      subst hl
      exact ⟨1, by decide, returns_nTry⟩
  | nDec sh | nStore sh | nWake sh => exact absurd (Option.some.inj hop).symm hacq
  | _ => exact hl.elim

end Normal

/-! ## A recursive or errorcheck mutex -/

/-- A copy of the word on which the timed loop does not turn in circles: the
unlocked word, or a locked one. -/
def CopyOk (ty : MutexType) (pshared : Bool) (mvalue : Word) : Prop :=
  mvalue = pthreadMutexInit ty pshared ∨ mvalue.toNat % 4 = 1 ∨ mvalue.toNat % 4 = 2

/-- The copies that are carried past a clock check. -/
def Pc.CopyOk (ty : MutexType) (pshared : Bool) : Pc → Prop
  | .clock _ mvalue => Mutex.CopyOk ty pshared mvalue
  | _ => True

section Recursive

variable {cfg : Config τ} {ty : MutexType} {pshared : Bool} {t : τ} {a : OwnedLock τ} {w : Word}

theorem Decodes.copyOk (ht : cfg.TidsOk) (h : Decodes cfg ty pshared w a) :
    CopyOk ty pshared w := by
  cases a with
  | free => exact .inl h
  | held u c =>
      rcases h.state_of_held ht with hs | hs
      · exact .inr (.inl hs)
      · exact .inr (.inr hs)

theorem lockLoop_copyOk {op : Op} {m mvalue : Word} (h : CopyOk ty pshared mvalue) :
    (lockLoop op m mvalue).CopyOk ty pshared := by
  rw [lockLoop]
  split
  · trivial
  · split
    · trivial
    · split
      · exact h
      · trivial

theorem step_copyOk (ht : cfg.TidsOk) (hd : Decodes cfg ty pshared w a) {pc : Pc}
    (hl : LocalOk ty pshared a t pc) (hc : pc.CopyOk ty pshared) {w' : Word} {nx : Next}
    (hs : pc.step (cfg.tid t) w = some (w', nx)) : (nx.pc pc).CopyOk ty pshared := by
  have hw : CopyOk ty pshared w := hd.copyOk ht
  cases pc with
  | idle | wake _ => cases hs
  | nLock _ _ | nSwap _ _ | nClock _ | nWait _ _ | nTry _ | nDec _ | nStore _ | nWake _ =>
      exact hl.elim
  | enter op =>
      obtain ⟨rfl, rfl⟩ := Prod.mk.inj (Option.some.inj hs)
      simp only [dispatch, recursiveIncrement]
      cases op <;> repeat' split
      all_goals first | trivial | exact lockLoop_copyOk hw
  | reload op m =>
      obtain ⟨rfl, rfl⟩ := Prod.mk.inj (Option.some.inj hs)
      exact lockLoop_copyOk hw
  | flip op m mvalue =>
      obtain ⟨hop, hcon, h1⟩ := hl
      rcases bionicCmpxchg_cases (Option.some.inj hs) with ⟨heq, rfl, rfl⟩ | ⟨-, rfl, rfl⟩
      · obtain ⟨-, h2⟩ := (heq ▸ hd).flip ht h1
        split
        · exact .inr (.inr h2)
        · trivial
      · split <;> trivial
  | flipReload m =>
      obtain ⟨rfl, rfl⟩ := Prod.mk.inj (Option.some.inj hs)
      exact hw
  | clock m mvalue =>
      obtain ⟨rfl, rfl⟩ := Prod.mk.inj (Option.some.inj hs)
      split
      · trivial
      · exact lockLoop_copyOk hc
  | incrReload op | acquireClock m | decReload =>
      obtain ⟨rfl, rfl⟩ := Prod.mk.inj (Option.some.inj hs)
      trivial
  | wait op m mvalue | swap newval sh =>
      obtain ⟨rfl, rfl⟩ := Prod.mk.inj (Option.some.inj hs)
      split <;> trivial
  | acquire op m =>
      rcases bionicCmpxchg_cases (Option.some.inj hs) with ⟨-, rfl, rfl⟩ | ⟨-, rfl, rfl⟩
      · trivial
      · split <;> trivial
  | incr op mvalue | quick op m | tryAcquire m | dec mvalue =>
      rcases bionicCmpxchg_cases (Option.some.inj hs) with ⟨-, rfl, rfl⟩ | ⟨-, rfl, rfl⟩ <;>
        trivial

/-! ### Alone with the unlocked word -/

section Free

variable (op : Op) (ty : MutexType) (pshared : Bool) (tid : Word)

theorem init_state : (pthreadMutexInit ty pshared).toNat % 4 = 0 := by
  rw [pthreadMutexInit_toNat]
  omega

/-- A locked copy is not the unlocked word. -/
theorem init_ne_copy {mvalue : Word} (h : mvalue.toNat % 4 = 1 ∨ mvalue.toNat % 4 = 2) :
    pthreadMutexInit ty pshared ≠ mvalue := by
  rintro rfl
  rw [init_state] at h
  omega

theorem returns_acquire :
    Returns tid 1 (pthreadMutexInit ty pshared) (.acquire op (pthreadMutexInit ty pshared)) op
      .ok :=
  .ret (by rw [Pc.step, bionicCmpxchg, if_pos rfl])

theorem returns_quick :
    Returns tid 1 (pthreadMutexInit ty pshared) (.quick op (pthreadMutexInit ty pshared)) op
      .ok :=
  .ret (by rw [Pc.step, bionicCmpxchg, if_pos rfl])

theorem returns_tryAcquire :
    Returns tid 1 (pthreadMutexInit ty pshared) (.tryAcquire (pthreadMutexInit ty pshared))
      .trylock .ok :=
  .ret (by rw [Pc.step, bionicCmpxchg, if_pos rfl])

/-- A new copy leads to the acquire. -/
theorem returns_reload :
    Returns tid 2 (pthreadMutexInit ty pshared) (.reload op (pthreadMutexInit ty pshared)) op
      .ok := by
  refine .goto rfl ?_
  rw [lockLoop, if_pos rfl]
  exact returns_acquire op ty pshared tid

/-- A contended copy is not the word, and the wait returns at once. -/
theorem returns_wait {mvalue : Word} (h : mvalue.toNat % 4 = 2) :
    Returns tid 3 (pthreadMutexInit ty pshared) (.wait op (pthreadMutexInit ty pshared) mvalue)
      op .ok := by
  refine .goto ?_ (returns_reload op ty pshared tid)
  rw [Pc.step, if_neg (init_ne_copy ty pshared (.inr h))]

/-- With the unlocked word as its copy the timed loop goes back to its head and
acquires. -/
theorem returns_clock_free :
    Returns tid 2 (pthreadMutexInit ty pshared)
      (.clock (pthreadMutexInit ty pshared) (pthreadMutexInit ty pshared)) .lockTimeoutNp
      .ok := by
  have hcont : ¬ mutexStateBitsIsLockedContended (pthreadMutexInit ty pshared) = true := by
    rw [isLockedContended_iff, init_state]
    decide
  refine .goto ?_ (returns_acquire .lockTimeoutNp ty pshared tid)
  rw [Pc.step, if_neg hcont, lockLoop, if_pos rfl]

theorem returns_flipReload :
    Returns tid 3 (pthreadMutexInit ty pshared) (.flipReload (pthreadMutexInit ty pshared))
      .lockTimeoutNp .ok :=
  .goto rfl (returns_clock_free ty pshared tid)

/-- An uncontended copy is not the word either: the flip fails, and both loops
take a new copy. -/
theorem returns_flip {mvalue : Word} (h : mvalue.toNat % 4 = 1) :
    ∃ n ≤ 4, Returns tid n (pthreadMutexInit ty pshared)
      (.flip op (pthreadMutexInit ty pshared) mvalue) op .ok := by
  have hne := init_ne_copy ty pshared (.inl h)
  by_cases hop : op = .lockTimeoutNp
  · subst hop
    refine ⟨4, le_refl 4, .goto ?_ (returns_flipReload ty pshared tid)⟩
    rw [Pc.step, bionicCmpxchg, if_neg hne, if_pos rfl]
  · refine ⟨3, by decide, .goto ?_ (returns_reload op ty pshared tid)⟩
    rw [Pc.step, bionicCmpxchg, if_neg hne, if_neg hop]

/-- The timed loop past its clock check, with any copy it can have. -/
theorem returns_clock {mvalue : Word} (h : CopyOk ty pshared mvalue) :
    ∃ n ≤ 5, Returns tid n (pthreadMutexInit ty pshared)
      (.clock (pthreadMutexInit ty pshared) mvalue) .lockTimeoutNp .ok := by
  rcases h with rfl | h1 | h2
  · exact ⟨2, by decide, returns_clock_free ty pshared tid⟩
  · obtain ⟨n, hn, hret⟩ := returns_flip .lockTimeoutNp ty pshared tid h1
    have hcont : ¬ mutexStateBitsIsLockedContended mvalue = true := by
      rw [isLockedContended_iff, h1]
      decide
    refine ⟨n + 1, by omega, .goto ?_ hret⟩
    rw [Pc.step, if_neg hcont, lockLoop, if_neg (init_ne_copy ty pshared (.inl h1)).symm,
      if_pos ((isLockedUncontended_iff mvalue).mpr h1)]
  · refine ⟨4, by decide, .goto ?_ (returns_wait .lockTimeoutNp ty pshared tid h2)⟩
    rw [Pc.step, if_pos ((isLockedContended_iff mvalue).mpr h2)]

end Free

/-- The first read of an acquire, on a free mutex. -/
theorem dispatch_free (ht : cfg.TidsOk) (hty : ty ≠ .normal) (t : τ) {op : Op}
    (hop : op ≠ .unlock) :
    dispatch op (cfg.tid t) (pthreadMutexInit ty pshared) =
      .goto (if op = .trylock then .tryAcquire (pthreadMutexInit ty pshared)
        else .quick op (pthreadMutexInit ty pshared)) := by
  have hd : Decodes cfg ty pshared (pthreadMutexInit ty pshared) .free := rfl
  have hnn : ¬ pthreadMutexInit ty pshared &&& mutexTypeMask = mutexTypeBits .normal := by
    rw [hd.type_bits ht]
    cases ty with
    | normal => exact absurd rfl hty
    | recursive | errorcheck => decide
  have hno : ¬ cfg.tid t = mutexOwnerFromBits (pthreadMutexInit ty pshared) :=
    fun h => not_ownedBy_free t ((hd.owner_iff ht t).mp h)
  have hor := type_or_shared ht hd
  simp only [dispatch, if_neg hnn, if_neg hno, hor]
  cases op with
  | unlock => exact absurd rfl hop
  | trylock =>
      show Next.goto (.tryAcquire (_ ||| mutexStateBitsUnlocked)) = _
      rw [show mutexStateBitsUnlocked = 0#32 from rfl, BitVec.or_zero, if_pos rfl]
  | lock | lockTimeoutNp => simp

theorem recursive_returns (ht : cfg.TidsOk) (hty : ty ≠ .normal) {pc : Pc} {op : Op}
    (hl : LocalOk ty pshared .free t pc) (hc : pc.CopyOk ty pshared) (hop : pc.op = some op)
    (hacq : op ≠ .unlock) :
    ∃ n ≤ 5, Returns (cfg.tid t) n (pthreadMutexInit ty pshared) pc op .ok := by
  cases pc with
  | idle => cases hop
  | enter op' =>
      obtain rfl := Option.some.inj hop
      have hst : (Pc.enter op').step (cfg.tid t) (pthreadMutexInit ty pshared) =
          some (pthreadMutexInit ty pshared, dispatch op' (cfg.tid t) _) := rfl
      rw [dispatch_free ht hty t hacq] at hst
      refine ⟨2, by decide, .goto hst ?_⟩
      split
      · next htry =>
          rw [htry]
          exact returns_tryAcquire ty pshared _
      · exact returns_quick op' ty pshared _
  | incr op' _ | incrReload op' =>
      obtain ⟨-, -, c, hheld, -⟩ := hl
      cases hheld
  | quick op' m =>
      obtain rfl := Option.some.inj hop
      obtain ⟨-, rfl, -⟩ := hl
      exact ⟨1, by decide, returns_quick op' ty pshared _⟩
  | reload op' m =>
      obtain rfl := Option.some.inj hop
      obtain ⟨-, rfl, -⟩ := hl
      exact ⟨2, by decide, returns_reload op' ty pshared _⟩
  | acquire op' m =>
      obtain rfl := Option.some.inj hop
      obtain ⟨-, rfl, -⟩ := hl
      exact ⟨1, by decide, returns_acquire op' ty pshared _⟩
  | acquireClock m =>
      obtain rfl := Option.some.inj hop
      obtain ⟨rfl, -⟩ := hl
      exact ⟨3, by decide, .goto rfl (returns_reload .lockTimeoutNp ty pshared _)⟩
  | flip op' m mvalue =>
      obtain rfl := Option.some.inj hop
      obtain ⟨-, ⟨rfl, -⟩, h1⟩ := hl
      obtain ⟨n, hn, hret⟩ := returns_flip op' ty pshared (cfg.tid t) h1
      exact ⟨n, by omega, hret⟩
  | flipReload m =>
      obtain rfl := Option.some.inj hop
      obtain ⟨rfl, -⟩ := hl
      exact ⟨3, by decide, returns_flipReload ty pshared _⟩
  | clock m mvalue =>
      obtain rfl := Option.some.inj hop
      obtain ⟨rfl, -⟩ := hl
      exact returns_clock ty pshared _ hc
  | wait op' m mvalue =>
      obtain rfl := Option.some.inj hop
      obtain ⟨-, ⟨rfl, -⟩, h2⟩ := hl
      exact ⟨3, by decide, returns_wait op' ty pshared _ h2⟩
  | tryAcquire m =>
      obtain rfl := Option.some.inj hop
      obtain ⟨rfl, -⟩ := hl
      exact ⟨1, by decide, returns_tryAcquire ty pshared _⟩
  | dec _ | decReload | swap _ _ | wake _ => exact absurd (Option.some.inj hop).symm hacq
  | nLock _ _ | nSwap _ _ | nClock _ | nWait _ _ | nTry _ | nDec _ | nStore _ | nWake _ =>
      exact hl.elim

end Recursive

/-! ## Every thread of a run -/

section Runs

variable [DecidableEq τ] {cfg : Config τ} {ty : MutexType} {pshared : Bool} {s s' : State τ}
  {a : OwnedLock τ}

/-- One thread moves to a program point without such a copy. -/
theorem copies_move {t : τ} {pc : Pc} (h : ∀ u, (s.pc u).CopyOk ty pshared)
    (hpc : ∀ u, s'.pc u = if u = t then pc else s.pc u) (hc : pc.CopyOk ty pshared) (u : τ) :
    (s'.pc u).CopyOk ty pshared := by
  rw [hpc]
  split
  · exact hc
  · exact h u

theorem fires_copies (ht : cfg.TidsOk) (hinv : RecInv cfg ty pshared s a)
    (h : ∀ u, (s.pc u).CopyOk ty pshared) {e : Event τ} (hf : Fires cfg s e s') (u : τ) :
    (s'.pc u).CopyOk ty pshared := by
  -- a sleeper that goes on takes a new copy first
  have hresume : ∀ {v : τ} {pc : Pc}, (s.pc v).afterWait = some pc → pc.CopyOk ty pshared := by
    intro v pc haw
    obtain ⟨op, m, mv, -, rfl⟩ := (hinv.locals v).of_afterWait haw
    trivial
  cases hf with
  | @call t op hpc =>
      have henter : (Pc.enter op).CopyOk ty pshared := trivial
      exact copies_move h (setPc_pc s t · _) henter u
  | @step t w nx hq hst =>
      exact copies_move h (fun v => advance_pc s t v w nx)
        (step_copyOk ht hinv.decodes (hinv.locals t) (h t) hst) u
  | @expire t hq hc => exact copies_move h (ret_pc s t · _ _) trivial u
  | @wakeNone t sh hsh hno => exact copies_move h (ret_pc s t · _ _) trivial u
  | @wakeSome t v sh pc hsh haw hq hkey =>
      have hmid := copies_move h (resume_pc s v · pc) (hresume haw)
      exact copies_move hmid (ret_pc _ t · _ _) trivial u
  | @interrupt v pc haw hq | @timeout v pc haw hq =>
      exact copies_move h (resume_pc s v · pc) (hresume haw) u
  | @timeoutBusy v op m mv pc hwait hq =>
      have hidle : Pc.idle.CopyOk ty pshared := trivial
      refine copies_move (t := v) h (fun x => ?_) hidle u
      rw [ret_pc, resume_pc]
      split <;> rfl

theorem copies_reachable (ht : cfg.TidsOk) (hty : ty ≠ .normal) {ok : State τ → Event τ → Prop}
    {es : List (Event τ)} (hrun : Run (step cfg) ok (Mutex.init ty pshared) es s) :
    ∃ a, RecInv cfg ty pshared s a ∧ ∀ u, (s.pc u).CopyOk ty pshared := by
  refine hrun.invariant
    (I := fun s => ∃ a, RecInv cfg ty pshared s a ∧ ∀ u, (s.pc u).CopyOk ty pshared)
    ⟨.free, RecInv.init cfg ty pshared, fun _ => trivial⟩ ?_
  rintro s e s' ⟨a, hinv, hcopy⟩ - hs
  obtain ⟨a', hinv', -, -⟩ := fires_refines ht hty hinv (step_fires hs)
  exact ⟨a', hinv', fires_copies ht hinv hcopy (step_fires hs)⟩

/-- The promise the normal mutex needs; the other two types check it themselves. -/
def HolderUnlocksNormal (ty : MutexType) (s : State τ) (e : Event τ) : Prop :=
  ty = .normal → HolderUnlocks s e

/-- In no reachable state is a free mutex out of reach: a thread that is awake inside
`lock`, `trylock` or `lock_timeout_np` and runs for itself has the mutex after five steps at
most, wherever in the function it is and whatever copies of the word it took before. -/
theorem free_mutex_within_reach (ht : cfg.TidsOk) {es : List (Event τ)} {t : τ} {op : Op}
    (hrun : Run (step cfg) (HolderUnlocksNormal ty) (Mutex.init ty pshared) es s)
    (hfree : s.word = pthreadMutexInit ty pshared) (hawake : t ∉ s.queue)
    (hop : (s.pc t).op = some op) (hacq : op ≠ .unlock) :
    ∃ n ≤ 5, ∃ s', runEvents (step cfg) s (List.replicate n (.step t)) = some s' ∧
      s'.log = (t, op, .ok) :: s.log := by
  have hret : ∃ n ≤ 5, Returns (cfg.tid t) n s.word (s.pc t) op .ok := by
    by_cases hty : ty = .normal
    · subst hty
      obtain ⟨st, h, hinv⟩ := normInv_reachable (hrun.imp fun _ _ _ hok _ => hok rfl)
      have hw : s.word = NState.unlocked.word pshared := hfree.trans init_normal
      have hst : st = .unlocked := NState.word_inj.mp (hinv.word.symm.trans hw)
      rw [hw]
      exact normal_returns (hinv.free.mp hst ▸ hinv.locals t) hop hacq
    · obtain ⟨a, hinv, hcopy⟩ := copies_reachable ht hty hrun
      have ha : a = .free := (hinv.decodes.init_iff ht).mp hfree
      rw [hfree]
      exact recursive_returns ht hty (ha ▸ hinv.locals t) (hcopy t) hop hacq
  obtain ⟨n, hn, hret⟩ := hret
  obtain ⟨s', hrun', hlog⟩ := hret.run rfl rfl hawake
  exact ⟨n, hn, s', hrun', hlog⟩

end Runs

/-- Thread `a` locks the mutex twice and unlocks it twice, and thread `b` asks for it
meanwhile: it has seen both locks, and the mutex is free when it goes on. -/
def lockedTwice {T : Type} (a b : T) : List (Event T) :=
  [.call a .lock, .step a, .step a, .call b .lockTimeoutNp, .step b, .call a .lock, .step a,
    .step a, .step b, .step b, .call a .unlock, .step a, .step a, .call a .unlock, .step a,
    .step a]

theorem free_mutex_within_reach_stale :
    ∃ s, Run (step twoThreads) (HolderUnlocksNormal .recursive) (init .recursive false)
        (lockedTwice 1 0) s ∧
      ∃ n ≤ 5, ∃ s', runEvents (step twoThreads) s (List.replicate n (.step 0)) = some s' ∧
        s'.log = (0, .lockTimeoutNp, .ok) :: s.log := by
  have hsome : (runEvents (step twoThreads) (init .recursive false) (lockedTwice 1 0)).isSome := by
    decide
  have hfree : (Option.get _ hsome).word = pthreadMutexInit .recursive false := by
    decide +revert
  have hawake : 0 ∉ (Option.get _ hsome).queue := by decide +revert
  have hop : ((Option.get _ hsome).pc 0).op = some .lockTimeoutNp := by decide +revert
  have hrun : Run (step twoThreads) (HolderUnlocksNormal .recursive) (init .recursive false)
      (lockedTwice 1 0) _ :=
    Run.of_runEvents (fun _ _ _ hty => by cases hty) (Option.some_get hsome).symm
  exact ⟨_, hrun,
    free_mutex_within_reach twoThreads_tidsOk hrun hfree hawake hop (by decide)⟩

end Pisces.Mutex
