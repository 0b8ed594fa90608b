import Pisces.Mutex.Owned

/-!
# Recursive and errorcheck mutexes refine the owned lock

The refinement has two halves. One thread's step, seen alone: whatever local
copy of the word the thread carries, the step it takes is a step of the owned
lock or changes nothing there (`step_refines`). All threads together: a step
of one thread keeps what every other thread relies on, because only the
actor's own ownership can change (`OwnedLock.OnlyBy`).

What a thread relies on is small (`LocalOk`). A stale copy of the word never
matters: every write but the last swap of `unlock` is a compare-and-exchange
that fails on a stale copy, and the swap is made by the owner, whose owner and
counter fields nobody else can change. So the facts carried along are about
the current abstract lock, and the copies only have to have the right state
bits where the code has tested them.
-/

namespace Pisces.Mutex

open OwnedLock Pisces.Lib

variable {τ : Type}

/-- A thread that is trying to get the lock: `mtype` is the unlocked word and
the thread is not the owner. -/
def Contends (ty : MutexType) (pshared : Bool) (a : OwnedLock τ) (t : τ) (mtype : Word) :
    Prop :=
  mtype = pthreadMutexInit ty pshared ∧ ¬ a.OwnedBy t

/-- What thread `t` relies on at each program point. -/
def LocalOk (ty : MutexType) (pshared : Bool) (a : OwnedLock τ) (t : τ) : Pc → Prop
  | .idle | .enter _ => True
  | .incr op _ | .incrReload op =>
      op ≠ .unlock ∧ ty = .recursive ∧ ∃ c : Fin 2048, a = .held t c ∧ c.val + 1 < 2048
  | .quick op m | .reload op m | .acquire op m => op ≠ .unlock ∧ Contends ty pshared a t m
  | .flip op m mvalue =>
      op ≠ .unlock ∧ Contends ty pshared a t m ∧ mvalue.toNat % 4 = 1
  | .wait op m mvalue =>
      op ≠ .unlock ∧ Contends ty pshared a t m ∧ mvalue.toNat % 4 = 2
  | .acquireClock m | .flipReload m | .clock m _ | .tryAcquire m => Contends ty pshared a t m
  | .dec _ | .decReload => ∃ c : Fin 2048, a = .held t c ∧ 0 < c.val
  | .swap newval shared =>
      newval = pthreadMutexInit ty pshared ∧ a = .held t 0 ∧
        shared = pthreadMutexInit ty pshared &&& mutexSharedMask
  | .wake shared =>
      ¬ a.OwnedBy t ∧ shared = pthreadMutexInit ty pshared &&& mutexSharedMask
  | .nLock _ _ | .nSwap _ _ | .nClock _ | .nWait _ _ | .nTry _ | .nDec _ | .nStore _
  | .nWake _ => False

theorem Contends.onlyBy {ty : MutexType} {pshared : Bool} {a a' : OwnedLock τ} {t u : τ}
    {m : Word} (h : OnlyBy t a a') (hu : u ≠ t) (hc : Contends ty pshared a u m) :
    Contends ty pshared a' u m :=
  ⟨hc.1, fun ho => hc.2 ((h.ownedBy hu).mpr ho)⟩

/-- A step of `t` keeps what every other thread relies on. -/
theorem LocalOk.onlyBy {ty : MutexType} {pshared : Bool} {a a' : OwnedLock τ} {t u : τ}
    {pc : Pc} (h : OnlyBy t a a') (hu : u ≠ t) (hl : LocalOk ty pshared a u pc) :
    LocalOk ty pshared a' u pc := by
  cases pc with
  | idle | enter _ => trivial
  | incr op _ | incrReload op =>
      obtain ⟨hop, hty, c, hc, hlt⟩ := hl
      exact ⟨hop, hty, c, (h u hu c).mp hc, hlt⟩
  | quick op m | reload op m | acquire op m => exact ⟨hl.1, hl.2.onlyBy h hu⟩
  | flip op m mv | wait op m mv => exact ⟨hl.1, hl.2.1.onlyBy h hu, hl.2.2⟩
  | acquireClock m | flipReload m | clock m _ | tryAcquire m => exact Contends.onlyBy h hu hl
  | dec _ | decReload =>
      obtain ⟨c, hc, hlt⟩ := hl
      exact ⟨c, (h u hu c).mp hc, hlt⟩
  | swap nv sh => exact ⟨hl.1, (h u hu 0).mp hl.2.1, hl.2.2⟩
  | wake sh => exact ⟨fun ho => hl.1 ((h.ownedBy hu).mpr ho), hl.2⟩
  | nLock _ _ | nSwap _ _ | nClock _ | nWait _ _ | nTry _ | nDec _ | nStore _ | nWake _ =>
      exact hl.elim

/-! ## One thread's step -/

/-- What the owned lock sees of a step of `t` that leaves program point `pc`:
nothing, the result of a call, or the release of an `unlock` whose futex wake
is still to come. -/
inductive Seen (ty : MutexType) (t : τ) (a : OwnedLock τ) : Next → OwnedLock τ → Prop
  | goto {pc : Pc} : (∀ sh, pc ≠ .wake sh) → Seen ty t a (.goto pc) a
  | sleep : Seen ty t a .sleep a
  | ret {op : Op} {r : Ret} {a' : OwnedLock τ} : Result ty t a op r a' →
      Seen ty t a (.ret op r) a'
  | released {sh : Word} : a = .held t 0 → Seen ty t a (.goto (.wake sh)) .free

theorem Seen.onlyBy {ty : MutexType} {t : τ} {a a' : OwnedLock τ} {nx : Next}
    (h : Seen ty t a nx a') : OnlyBy t a a' := by
  cases h with
  | goto _ | sleep => exact OnlyBy.refl t a
  | released ha => rw [ha]; exact OnlyBy.held_free t 0
  | ret hr =>
      cases hr with
      | acquire _ => exact OnlyBy.free_held t 0
      | relock _ _ _ | unnest _ => exact OnlyBy.held_held t _ _
      | release => exact OnlyBy.held_free t 0
      | overflow _ _ _ | deadlock _ _ | busy _ _ | notOwner _ => exact OnlyBy.refl t _

section OneThread

variable {cfg : Config τ} {ty : MutexType} {pshared : Bool} {w : Word} {a : OwnedLock τ}
  {t : τ}

/-- The type and shared bits, put back together. -/
theorem type_or_shared (ht : cfg.TidsOk) (h : Decodes cfg ty pshared w a) :
    (w &&& mutexTypeMask) ||| (w &&& mutexSharedMask) = pthreadMutexInit ty pshared := by
  rw [h.type_bits ht, h.shared_bits ht, pthreadMutexInit, BitVec.or_comm]

/-- A loop head that has just read a decodable word. -/
theorem lockLoop_ok (ht : cfg.TidsOk) (h : Decodes cfg ty pshared w a) {op : Op} {m : Word}
    (hop : op ≠ .unlock) (hc : Contends ty pshared a t m) :
    LocalOk ty pshared a t (lockLoop op m w) := by
  rw [lockLoop]
  split
  · exact ⟨hop, hc⟩
  · next hne =>
      split
      · next h1 => exact ⟨hop, hc, (isLockedUncontended_iff w).mp h1⟩
      · next h1 =>
          split
          · exact hc
          · refine ⟨hop, hc, ?_⟩
            cases a with
            | free => exact absurd (h.trans hc.1.symm) hne
            | held u c =>
                rcases h.state_of_held ht with hs | hs
                · exact absurd ((isLockedUncontended_iff w).mpr hs) h1
                · exact hs

/-- The timed loop re-enters its head with the copy it carries, which it has
just seen not to be contended. -/
theorem lockLoop_timed_ok {m mvalue : Word} (hc : Contends ty pshared a t m) :
    LocalOk ty pshared a t (lockLoop .lockTimeoutNp m mvalue) := by
  rw [lockLoop]
  split
  · exact ⟨by decide, hc⟩
  · split
    · next h1 => exact ⟨by decide, hc, (isLockedUncontended_iff mvalue).mp h1⟩
    · rw [if_pos rfl]; exact hc

theorem lockLoop_ne_wake (op : Op) (m mvalue sh : Word) : lockLoop op m mvalue ≠ .wake sh := by
  rw [lockLoop]
  split
  · simp
  · split
    · simp
    · split <;> simp

/-- What a step of `t` from `pc` to `w'` and `nx` has to establish. -/
def StepOk (cfg : Config τ) (ty : MutexType) (pshared : Bool) (a : OwnedLock τ) (t : τ)
    (pc : Pc) (w' : Word) (nx : Next) : Prop :=
  ∃ a', Decodes cfg ty pshared w' a' ∧ Seen ty t a nx a' ∧
    LocalOk ty pshared a' t (nx.pc pc)

theorem recursiveIncrement_ok (ht : cfg.TidsOk) (hd : Decodes cfg ty pshared w a)
    (hty : ty ≠ .normal) {op : Op} (hop : op ≠ .unlock) (ho : a.OwnedBy t) (pc : Pc) :
    StepOk cfg ty pshared a t pc w (recursiveIncrement op w (w &&& mutexTypeMask)) := by
  obtain ⟨c, rfl⟩ := ho
  refine ⟨.held t c, hd, ?_⟩
  rw [recursiveIncrement, hd.type_bits ht]
  have hcnt := hd.counter_bits ht
  split
  · next he =>
      have hec : ty = .errorcheck := by cases ty <;> first | rfl | exact absurd he (by decide)
      exact ⟨.ret (.deadlock hop hec), trivial⟩
  · next he =>
      have hrec : ty = .recursive := by
        cases ty with
        | normal => exact absurd rfl hty
        | recursive => rfl
        | errorcheck => exact absurd rfl he
      split
      · next hov =>
          rw [counterWillOverflow_iff, hcnt] at hov
          exact ⟨.ret (.overflow hop hrec hov), trivial⟩
      · next hov =>
          rw [counterWillOverflow_iff, hcnt] at hov
          have hlt := c.isLt
          exact ⟨.goto (by simp), hop, hrec, c, rfl, by omega⟩

theorem dispatch_ok (ht : cfg.TidsOk) (hd : Decodes cfg ty pshared w a) (hty : ty ≠ .normal)
    (op : Op) (pc : Pc) : StepOk cfg ty pshared a t pc w (dispatch op (cfg.tid t) w) := by
  have htb := hd.type_bits ht
  have hnn : ¬ w &&& mutexTypeMask = mutexTypeBits .normal := by
    rw [htb]
    cases ty with
    | normal => exact absurd rfl hty
    | recursive | errorcheck => decide
  have hor := type_or_shared ht hd
  have hsh : w &&& mutexSharedMask = pthreadMutexInit ty pshared &&& mutexSharedMask := by
    rw [hd.shared_bits ht]
    cases ty <;> cases pshared <;> rfl
  have hor0 : (w &&& mutexTypeMask) ||| (w &&& mutexSharedMask) ||| mutexStateBitsUnlocked =
      pthreadMutexInit ty pshared := by
    rw [hor, show mutexStateBitsUnlocked = 0#32 from rfl, BitVec.or_zero]
  simp only [dispatch, if_neg hnn]
  cases op with
  | unlock =>
      simp only []
      split
      · next hne =>
          have hno : ¬ a.OwnedBy t := fun ho => hne ((hd.owner_iff ht t).mpr ho)
          exact ⟨a, hd, .ret (.notOwner hno), trivial⟩
      · next heq =>
          obtain ⟨c, rfl⟩ := (hd.owner_iff ht t).mp (not_not.mp heq)
          have hcnt := hd.counter_bits ht
          split
          · next hz =>
              rw [Bool.not_eq_true', ← Bool.not_eq_true, counterIsZero_iff, hcnt] at hz
              exact ⟨_, hd, .goto (by simp), c, rfl, by omega⟩
          · next hz =>
              have hz' : mutexCounterBitsIsZero w = true := by simpa using hz
              rw [counterIsZero_iff, hcnt] at hz'
              have hc0 : c = 0 := Fin.ext hz'
              exact ⟨_, hd, .goto (by simp), hor0, by rw [hc0], hsh⟩
  | trylock =>
      simp only []
      split
      · next heq =>
          exact recursiveIncrement_ok ht hd hty (by decide) ((hd.owner_iff ht t).mp heq) pc
      · next hne =>
          exact ⟨a, hd, .goto (by simp), hor0, fun ho => hne ((hd.owner_iff ht t).mpr ho)⟩
  | lock | lockTimeoutNp =>
      simp only []
      split
      · next heq =>
          exact recursiveIncrement_ok ht hd hty (by decide) ((hd.owner_iff ht t).mp heq) pc
      · next hne =>
          have hc : Contends ty pshared a t ((w &&& mutexTypeMask) ||| (w &&& mutexSharedMask)) :=
            ⟨hor, fun ho => hne ((hd.owner_iff ht t).mpr ho)⟩
          split
          · exact ⟨a, hd, .goto (by simp), by decide, hc⟩
          · exact ⟨a, hd, .goto (lockLoop_ne_wake _ _ _), lockLoop_ok ht hd (by decide) hc⟩

/-- Acquiring a free mutex by compare-and-exchange. -/
theorem cmpxchg_acquire_ok (ht : cfg.TidsOk) (hd : Decodes cfg ty pshared w a) {op : Op}
    {m st w' : Word} {fail nx : Next} {pc : Pc} (hop : op ≠ .unlock)
    (hc : Contends ty pshared a t m)
    (hs : some (bionicCmpxchg m (ownedBy (cfg.tid t) m st) w (.ret op .ok) fail) =
      some (w', nx))
    (hst : st.toNat = 1 ∨ st.toNat = 2) (hfail : StepOk cfg ty pshared a t pc w fail) :
    StepOk cfg ty pshared a t pc w' nx := by
  rcases bionicCmpxchg_cases (Option.some.inj hs) with ⟨hw, rfl, rfl⟩ | ⟨-, rfl, rfl⟩
  · have hfree : a = .free := (hd.init_iff ht).mp (hw.trans hc.1)
    rw [hfree, hc.1]
    exact ⟨.held t 0, (Decodes.acquire ht t hst).1, .ret (.acquire hop), trivial⟩
  · exact hfail

/-- A step that only moves the thread. -/
theorem stepOk_goto (hd : Decodes cfg ty pshared w a) {pc pc' : Pc}
    (hne : ∀ sh, pc' ≠ .wake sh) (hl : LocalOk ty pshared a t pc') :
    StepOk cfg ty pshared a t pc w (.goto pc') :=
  ⟨a, hd, .goto hne, hl⟩

/-- Every atomic step of a thread refines the owned lock. -/
theorem step_refines (ht : cfg.TidsOk) (hty : ty ≠ .normal) {pc : Pc} {w' : Word} {nx : Next}
    (hd : Decodes cfg ty pshared w a) (hl : LocalOk ty pshared a t pc)
    (hs : pc.step (cfg.tid t) w = some (w', nx)) :
    StepOk cfg ty pshared a t pc w' nx := by
  have hsame : ∀ {v : Word} {n : Next}, some (v, n) = some (w', nx) → w' = v ∧ nx = n := by
    intro v n h
    rw [Option.some.injEq, Prod.mk.injEq] at h
    exact ⟨h.1.symm, h.2.symm⟩
  cases pc with
  | idle | wake _ => cases hs
  | nLock _ _ | nSwap _ _ | nClock _ | nWait _ _ | nTry _ | nDec _ | nStore _ | nWake _ =>
      exact hl.elim
  | enter op =>
      obtain ⟨rfl, rfl⟩ := hsame hs
      exact dispatch_ok ht hd hty op _
  | incr op mvalue =>
      obtain ⟨hop, hrec, ⟨c, hclt⟩, rfl, hc⟩ := hl
      rcases bionicCmpxchg_cases (Option.some.inj hs) with ⟨hw, rfl, rfl⟩ | ⟨-, rfl, rfl⟩
      · exact ⟨_, hw ▸ hd.incr ht hc, .ret (.relock hc hop hrec), trivial⟩
      · exact stepOk_goto hd (by simp) ⟨hop, hrec, _, rfl, hc⟩
  | incrReload op =>
      obtain ⟨rfl, rfl⟩ := hsame hs
      exact stepOk_goto hd (by simp) hl
  | quick op m =>
      exact cmpxchg_acquire_ok ht hd hl.1 hl.2 hs (.inl rfl) (stepOk_goto hd (by simp) hl)
  | reload op m =>
      obtain ⟨rfl, rfl⟩ := hsame hs
      exact stepOk_goto hd (lockLoop_ne_wake _ _ _) (lockLoop_ok ht hd hl.1 hl.2)
  | acquire op m =>
      refine cmpxchg_acquire_ok ht hd hl.1 hl.2 hs (.inr rfl) ?_
      split
      · exact stepOk_goto hd (by simp) hl.2
      · exact stepOk_goto hd (by simp) hl
  | acquireClock m =>
      obtain ⟨rfl, rfl⟩ := hsame hs
      exact stepOk_goto hd (by simp) ⟨by decide, hl⟩
  | flip op m mvalue =>
      obtain ⟨hop, hc, h1⟩ := hl
      rcases bionicCmpxchg_cases (Option.some.inj hs) with ⟨hw, rfl, rfl⟩ | ⟨-, rfl, rfl⟩
      · obtain ⟨hd2, h2⟩ := (hw ▸ hd).flip ht h1
        split
        · exact stepOk_goto hd2 (by simp) hc
        · exact stepOk_goto hd2 (by simp) ⟨hop, hc, h2⟩
      · split
        · exact stepOk_goto hd (by simp) hc
        · exact stepOk_goto hd (by simp) ⟨hop, hc⟩
  | flipReload m =>
      obtain ⟨rfl, rfl⟩ := hsame hs
      exact stepOk_goto hd (by simp) hl
  | clock m mvalue =>
      obtain ⟨rfl, rfl⟩ := hsame hs
      split
      · next h2 =>
          exact stepOk_goto hd (by simp)
            ⟨by decide, hl, (isLockedContended_iff mvalue).mp h2⟩
      · exact stepOk_goto hd (lockLoop_ne_wake _ _ _) (lockLoop_timed_ok hl)
  | wait op m mvalue =>
      obtain ⟨rfl, rfl⟩ := hsame hs
      split
      · exact ⟨a, hd, .sleep, hl⟩
      · exact stepOk_goto hd (by simp) ⟨hl.1, hl.2.1⟩
  | tryAcquire m =>
      exact cmpxchg_acquire_ok ht hd (by decide) hl hs (.inl rfl)
        ⟨a, hd, .ret (.busy (.inl rfl) hl.2), trivial⟩
  | dec mvalue =>
      obtain ⟨⟨c, hclt⟩, rfl, hpos⟩ := hl
      obtain ⟨d, rfl⟩ : ∃ d, c = d + 1 := ⟨c - 1, by simp only [] at hpos; omega⟩
      rcases bionicCmpxchg_cases (Option.some.inj hs) with ⟨hw, rfl, rfl⟩ | ⟨-, rfl, rfl⟩
      · exact ⟨_, hw ▸ hd.decr ht hclt, .ret (.unnest hclt), trivial⟩
      · exact stepOk_goto hd (by simp) ⟨_, rfl, hpos⟩
  | decReload =>
      obtain ⟨rfl, rfl⟩ := hsame hs
      exact stepOk_goto hd (by simp) hl
  | swap newval sh =>
      obtain ⟨hnew, rfl, hsh⟩ := hl
      obtain ⟨rfl, rfl⟩ := hsame hs
      split
      · exact ⟨.free, hnew, .released rfl, not_ownedBy_free t, hsh⟩
      · exact ⟨.free, hnew, .ret .release, trivial⟩

/-! What a program point says about the thread that is at it. -/

theorem LocalOk.of_wakesShared {pc : Pc} {sh : Bool} (hl : LocalOk ty pshared a t pc)
    (h : pc.wakesShared = some sh) :
    ∃ shared, pc = .wake shared ∧ shared = pthreadMutexInit ty pshared &&& mutexSharedMask := by
  cases pc <;> simp only [Pc.wakesShared, reduceCtorEq] at h
  · exact hl.elim
  · exact ⟨_, rfl, hl.2⟩

theorem LocalOk.of_afterWait {pc pc' : Pc} (hl : LocalOk ty pshared a t pc)
    (h : pc.afterWait = some pc') :
    ∃ op m mvalue, pc = .wait op m mvalue ∧ pc' = .reload op m := by
  cases pc <;> simp only [Pc.afterWait, reduceCtorEq] at h
  · exact hl.elim
  · exact ⟨_, _, _, rfl, (Option.some.inj h).symm⟩

theorem LocalOk.of_isClock {pc : Pc} (hl : LocalOk ty pshared a t pc)
    (h : pc.isClock = true) : ¬ a.OwnedBy t ∧ pc.owes = 0 := by
  cases pc <;> simp only [Pc.isClock, Bool.false_eq_true] at h
  · exact hl.elim
  · exact ⟨hl.2, rfl⟩
  · exact ⟨hl.2, rfl⟩

end OneThread

/-! ## All threads together -/

variable [DecidableEq τ]

/-- How deep `t` holds the lock. -/
def OwnedLock.depthOf (a : OwnedLock τ) (t : τ) : Nat :=
  match a with
  | .free => 0
  | .held u c => if u = t then c.val + 1 else 0

theorem OwnedLock.depthOf_onlyBy {t u : τ} {a a' : OwnedLock τ} (h : OnlyBy t a a')
    (hu : u ≠ t) : a'.depthOf u = a.depthOf u := by
  by_cases ho : a.OwnedBy u
  · obtain ⟨c, hc⟩ := ho
    rw [hc, (h u hu c).mp hc]
  · have ho' : ¬ a'.OwnedBy u := fun h' => ho ((h.ownedBy hu).mpr h')
    have hzero : ∀ b : OwnedLock τ, ¬ b.OwnedBy u → b.depthOf u = 0 := by
      intro b hb
      cases b with
      | free => rfl
      | held v c => exact if_neg fun hv => hb (ownedBy_held.mpr hv.symm)
    rw [hzero a ho, hzero a' ho']

/-- The invariant of a recursive or errorcheck mutex: the word stands for the
abstract lock, every thread has what it relies on, and the lock's depth is
what the returned calls add up to. -/
structure RecInv (cfg : Config τ) (ty : MutexType) (pshared : Bool) (s : State τ)
    (a : OwnedLock τ) : Prop where
  decodes : Decodes cfg ty pshared s.word a
  locals : ∀ t, LocalOk ty pshared a t (s.pc t)
  books : Books s a.depthOf

/-- What the owned lock sees of an event. -/
inductive AbsStep (ty : MutexType) (s s' : State τ) (a a' : OwnedLock τ) : Prop
  /-- Nothing. -/
  | quiet : s'.log = s.log → a' = a → AbsStep ty s s' a a'
  /-- A call returns, and this is the moment it takes effect. -/
  | result {t : τ} {op : Op} {r : Ret} : s'.log = (t, op, r) :: s.log →
      Result ty t a op r a' → AbsStep ty s s' a a'
  /-- An `unlock` lets go of the mutex, with its futex wake still to come. -/
  | released {t : τ} {sh : Word} : s'.log = s.log → s'.pc t = .wake sh → a = .held t 0 →
      a' = .free → AbsStep ty s s' a a'
  /-- That `unlock` returns. -/
  | woke {t : τ} {sh : Word} : s.pc t = .wake sh → s'.log = (t, .unlock, .ok) :: s.log →
      a' = a → AbsStep ty s s' a a'

section Invariant

variable {cfg : Config τ} {ty : MutexType} {pshared : Bool} {s s' : State τ}
  {a a' : OwnedLock τ} {t : τ}

theorem RecInv.init (cfg : Config τ) (ty : MutexType) (pshared : Bool) :
    RecInv cfg ty pshared (init ty pshared) .free where
  decodes := rfl
  locals _ := trivial
  books _ := rfl

/-- One thread moves, the lock stays, no call returns. -/
theorem RecInv.move (h : RecInv cfg ty pshared s a) {pc : Pc} (hw : s'.word = s.word)
    (hlog : s'.log = s.log) (hpc : ∀ u, s'.pc u = if u = t then pc else s.pc u)
    (hl : LocalOk ty pshared a t pc) (howes : pc.owes = (s.pc t).owes) :
    RecInv cfg ty pshared s' a where
  decodes := by rw [hw]; exact h.decodes
  locals u := by
    rw [hpc]
    split
    · next hu => rw [hu]; exact hl
    · exact h.locals u
  books := h.books.move hlog hpc howes

/-- One thread returns with a result that changes nothing and pays what the
thread owes. -/
theorem RecInv.finish (h : RecInv cfg ty pshared s a) {op : Op} {r : Ret}
    (hw : s'.word = s.word) (hlog : s'.log = (t, op, r) :: s.log)
    (hpc : ∀ u, s'.pc u = if u = t then .idle else s.pc u)
    (hgain : lockGain op r + (s.pc t).owes = unlockGain op r) :
    RecInv cfg ty pshared s' a where
  decodes := by rw [hw]; exact h.decodes
  locals u := by
    rw [hpc]
    split
    · trivial
    · exact h.locals u
  books := h.books.finish hlog hpc hgain

/-- What a thread gains in returned calls it gains in depth. -/
theorem Seen.gain {nx : Next} {pc : Pc} (hseen : Seen ty t a nx a')
    (hl : LocalOk ty pshared a' t (nx.pc pc)) (howes : pc.owes = 0) :
    nx.gains.1 + a.depthOf t = nx.gains.2 + a'.depthOf t + (nx.pc pc).owes := by
  cases hseen with
  | @goto pc' hne =>
      have howes' : ((Next.goto pc').pc pc).owes = 0 := by
        cases pc' <;> first | rfl | exact absurd rfl (hne _) | exact hl.elim
      rw [howes', Next.gains]
      omega
  | sleep =>
      rw [Next.pc, howes, Next.gains]
      omega
  | released ha =>
      rw [ha]
      simp [OwnedLock.depthOf, Next.gains, Next.pc, Pc.owes]
  | ret hr =>
      cases hr <;> simp_all [OwnedLock.depthOf, Next.gains, lockGain, unlockGain, Next.pc,
        Pc.owes] <;> omega

theorem RecInv.advance (ht : cfg.TidsOk) (hty : ty ≠ .normal)
    (h : RecInv cfg ty pshared s a) {w : Word} {nx : Next}
    (hs : (s.pc t).step (cfg.tid t) s.word = some (w, nx)) :
    ∃ a', RecInv cfg ty pshared (s.advance t w nx) a' ∧ Seen ty t a nx a' := by
  obtain ⟨a', hd, hseen, hl⟩ := step_refines ht hty h.decodes (h.locals t) hs
  have honly := hseen.onlyBy
  have howes : (s.pc t).owes = 0 := by
    cases hp : s.pc t <;> first | rfl | (rw [hp] at hs; cases hs)
  refine ⟨a', ⟨by rw [advance_word]; exact hd, fun u => ?_, ?_⟩, hseen⟩
  · rw [advance_pc]
    split
    · next hu => rw [hu]; exact hl
    · next hu => exact (h.locals u).onlyBy honly hu
  · exact h.books.advance howes (fun u hu => OwnedLock.depthOf_onlyBy honly hu)
      (hseen.gain hl howes)

/-- Every event refines the owned lock, and only its actor's ownership can
change. -/
theorem fires_refines (ht : cfg.TidsOk) (hty : ty ≠ .normal) {e : Event τ}
    (h : RecInv cfg ty pshared s a) (hf : Fires cfg s e s') :
    ∃ a', RecInv cfg ty pshared s' a' ∧ AbsStep ty s s' a a' ∧ OnlyBy e.actor a a' := by
  cases hf with
  | @call t op hpc =>
      refine ⟨a, h.move rfl rfl (setPc_pc s t · _) trivial ?_, .quiet rfl rfl, OnlyBy.refl _ a⟩
      rw [hpc]
      rfl
  | @step t w nx hq hst =>
      obtain ⟨a', hinv, hseen⟩ := h.advance ht hty hst
      refine ⟨a', hinv, ?_, hseen.onlyBy⟩
      cases hseen with
      | goto _ | sleep => exact .quiet rfl rfl
      | @released shared ha =>
          have hpc : (s.advance t w (.goto (.wake shared))).pc t = .wake shared := by
            rw [advance_pc, if_pos rfl]; rfl
          exact .released rfl hpc ha rfl
      | ret hr => exact .result rfl hr
  | @expire t hq hc =>
      obtain ⟨hno, howes⟩ := (h.locals t).of_isClock hc
      exact ⟨a, h.finish rfl rfl (ret_pc s t · _ _) (by rw [howes]; rfl),
        .result rfl (.busy (.inr rfl) hno), OnlyBy.refl _ a⟩
  | @wakeNone t sh hsh hno =>
      obtain ⟨shared, hpc, -⟩ := (h.locals t).of_wakesShared hsh
      exact ⟨a, h.finish rfl rfl (ret_pc s t · _ _) (by rw [hpc]; rfl),
        .woke hpc rfl rfl, OnlyBy.refl _ a⟩
  | @wakeSome t u sh pc hsh haw hq hkey =>
      obtain ⟨shared, hpc, -⟩ := (h.locals t).of_wakesShared hsh
      obtain ⟨op, m, mv, hwait, rfl⟩ := (h.locals u).of_afterWait haw
      have hne : t ≠ u := by
        rintro rfl
        rw [hpc] at hwait
        cases hwait
      have hl := h.locals u
      rw [hwait] at hl
      have hmid : RecInv cfg ty pshared (s.resume u (.reload op m)) a :=
        h.move rfl rfl (resume_pc s u · _) ⟨hl.1, hl.2.1⟩ (by rw [hwait]; rfl)
      have hpc' : (s.resume u (.reload op m)).pc t = .wake shared := by
        rw [resume_pc, if_neg hne, hpc]
      exact ⟨a, hmid.finish rfl rfl (ret_pc _ t · _ _) (by rw [hpc']; rfl),
        .woke hpc rfl rfl, OnlyBy.refl _ a⟩
  | @interrupt u pc haw hq | @timeout u pc haw hq =>
      obtain ⟨op, m, mv, hwait, rfl⟩ := (h.locals u).of_afterWait haw
      have hl := h.locals u
      rw [hwait] at hl
      exact ⟨a, h.move rfl rfl (resume_pc s u · _) ⟨hl.1, hl.2.1⟩ (by rw [hwait]; rfl),
        .quiet rfl rfl, OnlyBy.refl _ a⟩
  | @timeoutBusy u op m mv pc hwait hq =>
      have hl := h.locals u
      rw [hwait] at hl
      refine ⟨a, h.finish rfl rfl ?_ (by rw [hwait]; rfl),
        .result rfl (.busy (.inr rfl) hl.2.1.2), OnlyBy.refl _ a⟩
      intro v
      rw [ret_pc, resume_pc]
      split <;> rfl

/-- Every reachable state of a recursive or errorcheck mutex satisfies the
invariant. -/
theorem recInv_reachable (ht : cfg.TidsOk) (hty : ty ≠ .normal) {ok : State τ → Event τ → Prop}
    {es : List (Event τ)} (hrun : Run (step cfg) ok (Mutex.init ty pshared) es s) :
    ∃ a, RecInv cfg ty pshared s a := by
  refine hrun.invariant (I := fun s => ∃ a, RecInv cfg ty pshared s a)
    ⟨.free, RecInv.init cfg ty pshared⟩ ?_
  rintro s e s' ⟨a, h⟩ - hs
  obtain ⟨a', h', -, -⟩ := fires_refines ht hty h (step_fires hs)
  exact ⟨a', h'⟩

/-! ## The refinement -/

/-- The word of state `s` read as the abstract lock `a`. -/
structure OwnedView (cfg : Config τ) (ty : MutexType) (pshared : Bool) (s : State τ)
    (a : OwnedLock τ) : Prop where
  decodes : Decodes cfg ty pshared s.word a
  unique : ∀ b, Decodes cfg ty pshared s.word b → b = a
  counter : ∀ t c, a = .held t c →
    (s.word &&& mutexCounterMask).toNat / 4 = c.val ∧ s.locks t = s.unlocks t + (c.val + 1)
  type_bits : s.word &&& mutexTypeMask = mutexTypeBits ty
  shared_bits : s.word &&& mutexSharedMask = if pshared then mutexSharedMask else 0#32
  unlocked : a.depth = 0 ↔ s.word = pthreadMutexInit ty pshared

theorem RecInv.view (ht : cfg.TidsOk) (h : RecInv cfg ty pshared s a) :
    OwnedView cfg ty pshared s a where
  decodes := h.decodes
  unique b hb := h.decodes.unique ht hb
  counter t c hc := by
    subst hc
    have hl := h.locals t
    have howes : (s.pc t).owes = 0 := by
      cases hp : s.pc t <;> rw [hp] at hl <;>
        first | rfl | exact hl.elim | exact absurd ⟨c, rfl⟩ hl.1
    have hcount := h.books t
    rw [howes, OwnedLock.depthOf, if_pos rfl] at hcount
    refine ⟨?_, by omega⟩
    rw [counterMask_toNat, h.decodes.counter_bits ht]
    omega
  type_bits := h.decodes.type_bits ht
  shared_bits := h.decodes.shared_bits ht
  unlocked := by
    rw [h.decodes.init_iff ht]
    cases a with
    | free => exact ⟨fun _ => rfl, fun _ => rfl⟩
    | held t c => exact ⟨nofun, nofun⟩

/-- An `unlock` by a thread that does not own the mutex ends at its first
read. -/
theorem RecInv.unlock_notOwner (ht : cfg.TidsOk) (hty : ty ≠ .normal)
    (h : RecInv cfg ty pshared s a) (hno : ¬ a.OwnedBy t) (hpc : s.pc t = .enter .unlock)
    (hs : step cfg s (.step t) = some s') :
    s'.word = s.word ∧ s'.log = (t, .unlock, .eperm) :: s.log := by
  have hnn : ¬ s.word &&& mutexTypeMask = mutexTypeBits .normal := by
    rw [h.decodes.type_bits ht]
    cases ty with
    | normal => exact absurd rfl hty
    | recursive | errorcheck => decide
  have hne : cfg.tid t ≠ mutexOwnerFromBits s.word := fun he =>
    hno ((h.decodes.owner_iff ht t).mp he)
  have hd : dispatch .unlock (cfg.tid t) s.word = .ret .unlock .eperm := by
    simp only [dispatch, if_neg hnn, if_pos hne]
  cases step_fires hs with
  | step hq hst =>
      rw [hpc, Pc.step, Option.some.injEq, Prod.mk.injEq, hd] at hst
      obtain ⟨rfl, rfl⟩ := hst
      exact ⟨rfl, rfl⟩

/-- Two threads with tids 1 and 2. -/
def twoThreads : Config (Fin 2) where
  tid t := BitVec.ofNat 32 (t.val + 1)
  waitTimedOut := -etimedout

theorem twoThreads_tidsOk : twoThreads.TidsOk where
  inj t u h := by revert t u; decide
  pos := by decide
  le := by decide

end Invariant

end Pisces.Mutex
