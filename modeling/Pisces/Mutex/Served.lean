import Pisces.Mutex.Stage
import Pisces.Mutex.Wakeup

/-!
# Everybody can still be served: mutexes with an owner

No state of a recursive or errorcheck mutex is a dead end. Whoever owns the mutex
can finish what it is doing and unlock it as often as it holds it, and then the
threads that ask for it can have it one after the other, each unlocking it again,
until nobody is left. While somebody sleeps on a free mutex, another thread is awake
that will have to wake it, and that one is served first.
-/

namespace Pisces.Mutex

open Pisces.Lib OwnedLock

variable {τ : Type} [DecidableEq τ] {cfg : Config τ} {ty : MutexType} {pshared : Bool}
  {s s' : State τ} {a : OwnedLock τ} {t : τ} {op : Op}

/-! ## What is known on the way -/

/-- The invariants of a run in which no expired deadline strands a sleeper. -/
structure Serving (cfg : Config τ) (ty : MutexType) (pshared : Bool) (s : State τ)
    (a : OwnedLock τ) : Prop where
  inv : RecInv cfg ty pshared s a
  sleep : SleepInv ownedDiscipline s
  copies : ∀ u, (s.pc u).CopyOk ty pshared

theorem Serving.step (ht : cfg.TidsOk) (hty : ty ≠ .normal) (h : Serving cfg ty pshared s a)
    {e : Event τ} (hok : ExpiresSafely ownedDiscipline s e) (hs : Mutex.step cfg s e = some s') :
    ∃ a', Serving cfg ty pshared s' a' := by
  have hf := step_fires hs
  obtain ⟨a', hinv', -, -⟩ := fires_refines ht hty h.inv hf
  refine ⟨a', hinv', h.sleep.fires hok hf ?_ ?_, fires_copies ht h.inv h.copies hf⟩
  · exact fun t w nx hnq hst => h.inv.sleep_advance ht h.sleep hnq hst
  · exact fun t sh hsh hno => queue_nil_of_wakeNone h.inv h.sleep hsh hno

theorem serving_reachable (ht : cfg.TidsOk) (hty : ty ≠ .normal) {es : List (Event τ)}
    (hrun : Run (Mutex.step cfg) (ExpiresSafely ownedDiscipline) (Mutex.init ty pshared) es s) :
    ∃ a, Serving cfg ty pshared s a := by
  refine hrun.invariant (I := fun s => ∃ a, Serving cfg ty pshared s a)
    ⟨.free, RecInv.init cfg ty pshared, SleepInv.init ownedDiscipline ty pshared,
      fun _ => trivial⟩ ?_
  rintro s e s' ⟨a, h⟩ hok hs
  exact h.step ht hty hok hs

omit [DecidableEq τ] in
theorem allows_expiresSafely : Allows (@ExpiresSafely τ ownedDiscipline) where
  step _ _ := trivial
  wake _ _ _ := trivial

/-- A stage of the schedule. -/
abbrev SafeStage (cfg : Config τ) (s : State τ) (t : τ) (op : Op) (r : Ret) (s' : State τ) :
    Prop :=
  Stage cfg (ExpiresSafely ownedDiscipline) s t op r s'

theorem Serving.stage (ht : cfg.TidsOk) (hty : ty ≠ .normal) (h : Serving cfg ty pshared s a)
    {r : Ret} (hstage : SafeStage cfg s t op r s') : ∃ a', Serving cfg ty pshared s' a' := by
  obtain ⟨es, -, hrun⟩ := hstage.run
  refine hrun.invariant (I := fun s => ∃ a, Serving cfg ty pshared s a) ⟨a, h⟩ ?_
  rintro s e s' ⟨a, h⟩ hok hs
  exact h.step ht hty hok hs

/-! ## The owner -/

/-- An owner does not sleep. -/
theorem Serving.owner_awake (h : Serving cfg ty pshared s a) (ho : a.OwnedBy t) : t ∉ s.queue := by
  intro hq
  obtain ⟨op, m, mvalue, hpc⟩ := Pc.isWait_iff.mp (h.sleep.asleep t hq)
  have hl := h.inv.locals t
  rw [hpc] at hl
  exact hl.2.1.2 ho

/-- A futex wake, of a sleeper if there is one. -/
theorem Serving.wake_stage (h : Serving cfg ty pshared s a) {sh : Word}
    (hpc : s.pc t = .wake sh) : ∃ s', SafeStage cfg s t .unlock .ok s' := by
  have hsh : (s.pc t).wakesShared = some (sh != 0#32) := by rw [hpc]; rfl
  refine Mutex.wake_stage allows_expiresSafely hsh fun u hu => ?_
  obtain ⟨op, m, mvalue, hwait⟩ := Pc.isWait_iff.mp (h.sleep.asleep u hu)
  rw [hwait]
  exact Option.some_ne_none _

/-- The last part of an `unlock`. -/
theorem Serving.swap_stage (ht : cfg.TidsOk) (hty : ty ≠ .normal) (h : Serving cfg ty pshared s a)
    (hq : t ∉ s.queue) {nv sh : Word} (hpc : s.pc t = .swap nv sh) :
    ∃ s', SafeStage cfg s t .unlock .ok s' := by
  have hst : (s.pc t).step (cfg.tid t) s.word = some (nv,
      if mutexStateBitsIsLockedContended s.word then .goto (.wake sh) else .ret .unlock .ok) := by
    rw [hpc]
    rfl
  split at hst
  · obtain ⟨a₁, h₁⟩ := h.step ht hty (e := .step t) trivial (stepGoto hq hst)
    obtain ⟨s', hstage⟩ := h₁.wake_stage (advance_goto_pc ..)
    exact ⟨s', hstage.goto allows_expiresSafely hq hst⟩
  · exact ⟨_, .ret allows_expiresSafely hq hst⟩

theorem returns_enter (hdisp : dispatch op tid w = recursiveIncrement op w (w &&& mutexTypeMask)) :
    ∃ n r, Returns tid n w (.enter op) op r := by
  have hst : (Pc.enter op).step tid w = some (w, dispatch op tid w) := rfl
  rw [hdisp, recursiveIncrement] at hst
  split at hst
  · exact ⟨1, _, .ret hst⟩
  · split at hst
    · exact ⟨1, _, .ret hst⟩
    · obtain ⟨n, -, hret⟩ := @returns_incr tid w w op
      exact ⟨n + 1, _, .goto hst hret⟩

/-- An owner finishes the call that it is in; its `unlock` succeeds. -/
theorem Serving.owner_stage (ht : cfg.TidsOk) (hty : ty ≠ .normal) {c : Fin 2048}
    (h : Serving cfg ty pshared s (.held t c)) (hop : (s.pc t).op = some op) :
    ∃ r s', SafeStage cfg s t op r s' ∧ (op = .unlock → r = .ok) := by
  have hq : t ∉ s.queue := h.owner_awake (ownedBy_held.mpr rfl)
  have hown : (OwnedLock.held t c).OwnedBy t := ownedBy_held.mpr rfl
  have hl := h.inv.locals t
  have hdone : ∀ {n r}, Returns (cfg.tid t) n s.word (s.pc t) op r → (op = .unlock → r = .ok) →
      ∃ r s', SafeStage cfg s t op r s' ∧ (op = .unlock → r = .ok) := by
    intro n r hret hr
    obtain ⟨s', hstage⟩ := hret.stage allows_expiresSafely rfl rfl hq
    exact ⟨r, s', hstage, hr⟩
  cases hpc : s.pc t with
  | idle =>
      rw [hpc] at hop
      cases hop
  | enter op' =>
      rw [hpc] at hop hdone
      obtain rfl := Option.some.inj hop
      have hdisp := owner_dispatch op' ht hty h.inv.decodes
      by_cases hun : op' = .unlock
      · subst hun
        have hst : (s.pc t).step (cfg.tid t) s.word =
            some (s.word, dispatch .unlock (cfg.tid t) s.word) := by
          rw [hpc]
          rfl
        rw [hdisp, if_pos rfl] at hst
        split at hst
        · -- the last one: the mutex is given back
          have hs := stepGoto hq hst
          obtain ⟨a₁, h₁⟩ := h.step ht hty (e := .step t) trivial hs
          obtain ⟨s', hstage⟩ := h₁.swap_stage ht hty hq (advance_goto_pc ..)
          exact ⟨.ok, s', hstage.goto allows_expiresSafely hq hst, fun _ => rfl⟩
        · obtain ⟨n, -, hret⟩ := @returns_dec (cfg.tid t) s.word s.word
          rw [hpc] at hst
          exact hdone (.goto hst hret) fun _ => rfl
      · rw [if_neg hun] at hdisp
        obtain ⟨n, r, hret⟩ := returns_enter hdisp
        exact hdone hret fun hno => absurd hno hun
  | incr op' mv =>
      rw [hpc] at hop hdone
      obtain rfl := Option.some.inj hop
      obtain ⟨n, -, hret⟩ := @returns_incr (cfg.tid t) s.word mv op'
      exact hdone hret fun _ => rfl
  | incrReload op' =>
      rw [hpc] at hop hdone
      obtain rfl := Option.some.inj hop
      obtain ⟨n, -, hret⟩ := @returns_incr (cfg.tid t) s.word s.word op'
      exact hdone (.goto rfl hret) fun _ => rfl
  | dec mv =>
      rw [hpc] at hop hdone
      obtain rfl := Option.some.inj hop
      obtain ⟨n, -, hret⟩ := @returns_dec (cfg.tid t) s.word mv
      exact hdone hret fun _ => rfl
  | decReload =>
      rw [hpc] at hop hdone
      obtain rfl := Option.some.inj hop
      obtain ⟨n, -, hret⟩ := @returns_dec (cfg.tid t) s.word s.word
      exact hdone (.goto rfl hret) fun _ => rfl
  | swap nv sh =>
      rw [hpc] at hop
      obtain rfl := Option.some.inj hop
      obtain ⟨s', hstage⟩ := h.swap_stage ht hty hq hpc
      exact ⟨.ok, s', hstage, fun _ => rfl⟩
  | wake sh =>
      rw [hpc] at hl
      exact absurd hown hl.1
  | quick _ _ | reload _ _ | acquire _ _ =>
      rw [hpc] at hl
      exact absurd hown hl.2.2
  | flip _ _ _ | wait _ _ _ =>
      rw [hpc] at hl
      exact absurd hown hl.2.1.2
  | acquireClock _ | flipReload _ | clock _ _ | tryAcquire _ =>
      rw [hpc] at hl
      exact absurd hown hl.2
  | _ =>
      rw [hpc] at hl
      exact hl.elim

/-! ## A free mutex -/

/-- A thread that is awake inside finishes its call while the mutex is free; if it asks
for the mutex it gets it. -/
theorem Serving.free_stage (ht : cfg.TidsOk) (hty : ty ≠ .normal)
    (h : Serving cfg ty pshared s .free) (hq : t ∉ s.queue) (hop : (s.pc t).op = some op) :
    ∃ r s', SafeStage cfg s t op r s' ∧ (op ≠ .unlock → r = .ok) := by
  have hl := h.inv.locals t
  have hword : s.word = pthreadMutexInit ty pshared := h.inv.decodes
  by_cases hacq : op = .unlock
  · subst hacq
    cases hpc : s.pc t with
    | enter op' =>
        rw [hpc] at hop
        obtain rfl := Option.some.inj hop
        have hno : ¬ cfg.tid t = mutexOwnerFromBits s.word :=
          fun howner => not_ownedBy_free t ((h.inv.decodes.owner_iff ht t).mp howner)
        have hnn : ¬ s.word &&& mutexTypeMask = mutexTypeBits .normal := by
          rw [h.inv.decodes.type_bits ht]
          cases ty with
          | normal => exact absurd rfl hty
          | recursive | errorcheck => decide
        have hst : (s.pc t).step (cfg.tid t) s.word = some (s.word, .ret .unlock .eperm) := by
          rw [hpc]
          simp only [Pc.step, dispatch, if_neg hnn, ne_eq, hno, not_false_eq_true, if_true]
        exact ⟨.eperm, _, .ret allows_expiresSafely hq hst, fun hne => absurd rfl hne⟩
    | wake sh =>
        obtain ⟨s', hstage⟩ := h.wake_stage hpc
        exact ⟨.ok, s', hstage, fun _ => rfl⟩
    | dec _ | decReload =>
        rw [hpc] at hl
        obtain ⟨c, hheld, -⟩ := hl
        cases hheld
    | swap _ _ =>
        rw [hpc] at hl
        have hheld := hl.2.1
        cases hheld
    | incr _ _ | incrReload _ | quick _ _ | reload _ _ | acquire _ _ | flip _ _ _ | wait _ _ _ =>
        rw [hpc] at hop hl
        exact absurd (Option.some.inj hop) hl.1
    | idle | acquireClock _ | flipReload _ | clock _ _ | tryAcquire _ =>
        rw [hpc] at hop
        cases hop
    | _ =>
        rw [hpc] at hl
        exact hl.elim
  · obtain ⟨n, -, hret⟩ := recursive_returns ht hty hl (h.copies t) hop hacq
    obtain ⟨s', hstage⟩ := hret.stage allows_expiresSafely hword rfl hq
    exact ⟨.ok, s', hstage, fun _ => rfl⟩

/-! ## One after the other -/

/-- An idle owner unlocks the mutex once. -/
theorem Serving.unlock_stage (ht : cfg.TidsOk) (hty : ty ≠ .normal) {c : Fin 2048}
    (h : Serving cfg ty pshared s (.held t c)) (hidle : s.pc t = .idle) :
    ∃ s', SafeStage cfg s t .unlock .ok s' := by
  have hs : Mutex.step cfg s (.call t .unlock) = some (s.setPc t (.enter .unlock)) := by
    simp only [Mutex.step, if_pos hidle]
  obtain ⟨a₁, h₁⟩ := h.step ht hty (e := .call t .unlock) trivial hs
  obtain rfl : a₁ = .held t c := h.inv.decodes.unique ht h₁.inv.decodes
  have hop : ((s.setPc t (.enter .unlock)).pc t).op = some .unlock := by
    simp [Pc.op]
  obtain ⟨r, s', hstage, hr⟩ := h₁.owner_stage ht hty hop
  obtain rfl := hr rfl
  refine ⟨s', hstage.cons hs trivial trivial (fun u hu => ?_) rfl⟩
  rw [setPc_pc, if_neg hu]

/-- Nobody is left: the mutex is free, and no thread is awake inside. -/
theorem Serving.settled (h : Serving cfg ty pshared s .free)
    (hnone : ∀ t, t ∉ s.queue → s.pc t = .idle) : Settled ty pshared s := by
  have hword : s.word = pthreadMutexInit ty pshared := h.inv.decodes
  have hqueue : s.queue = [] := by
    by_contra hne
    have hmark : ownedDiscipline.marked s.word = false := by
      rw [hword]
      cases ty <;> cases pshared <;> decide
    obtain ⟨u, hnq, hin⟩ := h.sleep.someone_inside hne hmark
    exact hin (hnone u hnq)
  exact ⟨fun t => hnone t (by rw [hqueue]; exact List.not_mem_nil), hqueue, hword⟩

theorem serving_service (ht : cfg.TidsOk) (hty : ty ≠ .normal) :
    Service cfg (ExpiresSafely ownedDiscipline) ty pshared
      fun s => ∃ a, Serving cfg ty pshared s a where
  keeps := by
    rintro s t op r s' ⟨a, h⟩ hstage
    exact h.stage ht hty hstage
  next := by
    rintro s ⟨a, h⟩
    cases a with
    | held t c =>
        have hheld : s.held t = c.val + 1 := (h.inv.books.held t).trans (if_pos rfl)
        cases hop : (s.pc t).op with
        | none =>
            have hidle := Pc.op_eq_none.mp hop
            obtain ⟨s', hstage⟩ := h.unlock_stage ht hty hidle
            exact .unlock hstage hidle (by omega)
        | some op =>
            obtain ⟨r, s', hstage, -⟩ := h.owner_stage ht hty hop
            exact .finish hstage hop fun _ hno => by omega
    | free =>
        by_cases hsome : ∃ t, t ∉ s.queue ∧ s.pc t ≠ .idle
        · obtain ⟨t, hq, hin⟩ := hsome
          obtain ⟨op, hop⟩ := Option.ne_none_iff_exists'.mp fun hno => hin (Pc.op_eq_none.mp hno)
          obtain ⟨r, s', hstage, hr⟩ := h.free_stage ht hty hq hop
          exact .finish hstage hop fun hacq _ => hr hacq
        · exact .settled (h.settled fun t hq => by_contra fun hin => hsome ⟨t, hq, hin⟩)

/-- From every state of every run on a recursive or errorcheck mutex in which no expired
deadline strands a sleeper: without a new request, without the clock and without a
wake-up for no reason the calls can all return and the mutex be free, and every thread
that asks for the mutex and does not own it gets it on the way. -/
theorem everyone_served [Fintype τ] (ht : cfg.TidsOk) (hty : ty ≠ .normal) {es : List (Event τ)}
    (hrun : Run (Mutex.step cfg) (ExpiresSafely ownedDiscipline) (Mutex.init ty pshared) es s) :
    ∃ es' s' new, (∀ e ∈ es', e.Regular) ∧ runEvents (Mutex.step cfg) s es' = some s' ∧
      (∀ t, s'.pc t = .idle) ∧ s'.queue = [] ∧ s'.word = pthreadMutexInit ty pshared ∧
      s'.log = new ++ s.log ∧
      ∀ t op, (s.pc t).op = some op → op ≠ .unlock → cfg.tid t ≠ mutexOwnerFromBits s.word →
        (t, op, .ok) ∈ new := by
  obtain ⟨a, h⟩ := serving_reachable ht hty hrun
  obtain ⟨es', s', new, hes, hrun', hsettled, hlog, hserved⟩ :=
    (serving_service ht hty).servable ⟨a, h⟩
  refine ⟨es', s', new, hes, hrun'.executes, hsettled.idle, hsettled.queue, hsettled.word, hlog,
    fun t op hop hacq hno => hserved t op hop hacq ?_⟩
  rw [h.inv.books.held t]
  by_contra hpos
  exact hno ((h.inv.decodes.owner_iff ht t).mpr (depthOf_pos (Nat.pos_of_ne_zero hpos)))

/-- Thread `a` has locked the mutex twice, and the other two sleep, one of them in a timed
lock. -/
def twoAsleep {T : Type} (a b c : T) : List (Event T) :=
  [.call a .lock, .step a, .step a, .call a .lock, .step a, .step a, .call b .lock, .step b,
    .step b, .step b, .call c .lockTimeoutNp, .step c, .step c, .step c]

theorem everyone_served_asleep :
    ∃ s, Run (Mutex.step threeThreads) (ExpiresSafely ownedDiscipline)
        (Mutex.init .recursive true) (twoAsleep 0 1 2) s ∧ s.queue = [2, 1] ∧
      ∃ es' s' new, (∀ e ∈ es', e.Regular) ∧
        runEvents (Mutex.step threeThreads) s es' = some s' ∧ s'.queue = [] ∧
        s'.log = new ++ s.log ∧ (1, .lock, .ok) ∈ new ∧ (2, .lockTimeoutNp, .ok) ∈ new := by
  have hsome : (runEvents (Mutex.step threeThreads) (Mutex.init .recursive true)
      (twoAsleep 0 1 2)).isSome := by decide
  have hword : (Option.get _ hsome).word = 0x00016006#32 := by decide +revert
  have hrun : Run (Mutex.step threeThreads) (ExpiresSafely ownedDiscipline)
      (Mutex.init .recursive true) (twoAsleep 0 1 2) _ :=
    Run.of_runEvents (by simp [twoAsleep, ExpiresSafely]) (Option.some_get hsome).symm
  obtain ⟨es', s', new, hes, hrun', -, hqueue, -, hlog, hserved⟩ :=
    everyone_served threeThreads_tidsOk (by decide) hrun
  refine ⟨_, hrun, rfl, es', s', new, hes, hrun', hqueue, hlog, hserved 1 .lock rfl (by decide) ?_,
    hserved 2 .lockTimeoutNp rfl (by decide) ?_⟩ <;>
    (rw [hword]; decide)

end Pisces.Mutex
