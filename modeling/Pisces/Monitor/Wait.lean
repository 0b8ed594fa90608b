import Pisces.Monitor.Model

/-!
# A wait gives the mutex back

`__pthread_cond_timedwait_relative` unlocks the mutex once, whatever the
caller's depth, and locks it once. So a caller that holds the mutex once does
not hold it while it waits, and one that holds a recursive mutex `d` times
holds it `d - 1` times and lets nobody else in. In both cases the caller has
what it had when the wait returns: the two results that the code ignores are
successes.

The argument is a count. How often a thread has come back from its acquires and
from its `unlock`s changes only when one of its own calls returns, and the two
calls of a wait are the only ones it can make there. `Located` is where a
thread can be, with the count it has there.
-/

namespace Pisces.Monitor

open Pisces.Lib

variable {τ : Type} [DecidableEq τ]

/-- The successful acquires of `t` outnumber its successful `unlock`s by `n`. -/
def Counts (m : Mutex.State τ) (t : τ) (n : Nat) : Prop := m.locks t = m.unlocks t + n

/-- Where a thread is that held the mutex `d` times when it called its wait, and
how often it holds it there. The flag says that it has called the mutex function
of its phase. -/
inductive Located (m : Mutex.State τ) (t : τ) (d : Nat) : Phase → Bool → Prop
  | outside : Located m t d .outside false
  | reading : m.pc t = .idle → Counts m t d → Located m t d .reading false
  | toUnlock : m.pc t = .idle → Counts m t d → Located m t d .unlocking false
  | unlocking : (m.pc t).op = some .unlock → Counts m t d → Located m t d .unlocking true
  | unlocked : m.pc t = .idle → Counts m t (d - 1) → Located m t d .unlocking true
  | waiting : m.pc t = .idle → Counts m t (d - 1) → Located m t d .waiting false
  | toLock : m.pc t = .idle → Counts m t (d - 1) → Located m t d .locking false
  | locking : (m.pc t).op = some .lock → Counts m t (d - 1) → Located m t d .locking true
  | locked : m.pc t = .idle → Counts m t (d - 1 + 1) → Located m t d .locking true

section Located

variable {m m' : Mutex.State τ} {t : τ} {d : Nat} {p : Phase} {b : Bool}

/-- A step that leaves the function and the counts of `t` alone. -/
theorem Located.frame (h : Located m t d p b) (hop : (m'.pc t).op = (m.pc t).op)
    (hn : ∀ n, Counts m t n → Counts m' t n) : Located m' t d p b := by
  have hidle : m.pc t = .idle → m'.pc t = .idle := by
    intro hidle
    rw [hidle] at hop
    exact Mutex.Pc.op_eq_none.mp hop
  cases h with
  | outside => exact .outside
  | reading hi hc => exact .reading (hidle hi) (hn _ hc)
  | toUnlock hi hc => exact .toUnlock (hidle hi) (hn _ hc)
  | unlocking ho hc => exact .unlocking (hop.trans ho) (hn _ hc)
  | unlocked hi hc => exact .unlocked (hidle hi) (hn _ hc)
  | waiting hi hc => exact .waiting (hidle hi) (hn _ hc)
  | toLock hi hc => exact .toLock (hidle hi) (hn _ hc)
  | locking ho hc => exact .locking (hop.trans ho) (hn _ hc)
  | locked hi hc => exact .locked (hidle hi) (hn _ hc)

theorem counts_of_log_eq (hlog : m'.log = m.log) {n : Nat} (h : Counts m t n) :
    Counts m' t n := by
  rw [Counts, Mutex.locks_of_log_eq hlog, Mutex.unlocks_of_log_eq hlog]
  exact h

/-- A return is seen in the counts of its own thread only. -/
theorem counts_of_other {u : τ} {op : Mutex.Op} {r : Mutex.Ret}
    (hlog : m'.log = (u, op, r) :: m.log) (hu : t ≠ u) {n : Nat} (h : Counts m t n) :
    Counts m' t n := by
  rw [Counts, Mutex.locks_of_log_cons hlog, Mutex.unlocks_of_log_cons hlog, if_neg hu, if_neg hu]
  exact h

/-- The calls of a wait return as they should: the `unlock` takes one from the
count if there is one to take, the `lock` adds one. -/
theorem Located.ret (h : Located m t d p b) {op : Mutex.Op} {r : Mutex.Ret}
    (hlog : m'.log = (t, op, r) :: m.log) (hop : (m.pc t).op = some op)
    (hidle : m'.pc t = .idle) (hunlock : op = .unlock → Counts m t d → (r = .ok ↔ 0 < d))
    (hlock : op = .lock → Counts m t (d - 1) → r = .ok) : Located m' t d p b := by
  obtain ⟨hlocks, hunlocks⟩ := Mutex.counts_of_ret hlog
  have hnot : m.pc t ≠ .idle := by
    intro hi
    rw [hi] at hop
    cases hop
  cases h with
  | outside => exact .outside
  | reading hi _ | toUnlock hi _ | unlocked hi _ | waiting hi _ | toLock hi _ | locked hi _ =>
      exact absurd hi hnot
  | unlocking ho hc =>
      rw [ho, Option.some.injEq] at hop
      subst hop
      have hr := hunlock rfl hc
      refine .unlocked hidle ?_
      rw [Counts] at hc ⊢
      by_cases hok : r = .ok
      · have hpos := hr.mp hok
        simp [Mutex.lockGain, Mutex.unlockGain, hok] at hlocks hunlocks
        omega
      · have hzero : ¬ 0 < d := fun hpos => hok (hr.mpr hpos)
        simp [Mutex.lockGain, Mutex.unlockGain, hok] at hlocks hunlocks
        omega
  | locking ho hc =>
      rw [ho, Option.some.injEq] at hop
      subst hop
      have hok := hlock rfl hc
      refine .locked hidle ?_
      rw [Counts] at hc ⊢
      simp [Mutex.lockGain, Mutex.unlockGain, hok] at hlocks hunlocks
      omega

end Located

/-! ## Runs -/

/-- What callers promise, so that the mutex is called as `ok` asks: they do so
themselves, they hold the mutex `least` times when they wait, and that is enough
for the two calls of a wait. -/
structure Promise (ok : Mutex.State τ → Mutex.Event τ → Prop) (guard : State τ → Event τ → Prop)
    (least : Nat) : Prop where
  mutex : ∀ {s e}, guard s (.mutex e) → ok s.mutex e
  wait : ∀ {s t timed n}, guard s (.cond (.startWait t timed)) → Counts s.mutex t n → least ≤ n
  call : ∀ {m t n op}, m.pc t = .idle → Counts m t n → (op = .unlock → least ≤ n) →
    op = .unlock ∨ op = .lock → ok m (.call t op)

structure MonInv (cfg : Mutex.Config τ) (ty : Mutex.MutexType) (pshared : Bool)
    (ok : Mutex.State τ → Mutex.Event τ → Prop) (least : Nat) (s : State τ) : Prop where
  reach : ∃ es, Run (Mutex.step cfg) ok (Mutex.init ty pshared) es s.mutex
  located : ∀ t, Located s.mutex t (s.depth t) (phase (s.cond.pc t)) (s.inCall t)
  most : ∀ t, s.depth t ≤ ty.most
  least : ∀ t, phase (s.cond.pc t) ≠ .outside → least ≤ s.depth t
  sleepers : Cond.SleepersWait s.cond

section Run

variable {cfg : Mutex.Config τ} {ty : Mutex.MutexType} {pshared : Bool}
  {ok : Mutex.State τ → Mutex.Event τ → Prop} {guard : State τ → Event τ → Prop} {least : Nat}
  {s s' : State τ} {t : τ}

theorem MonInv.init (w : Cond.Word) :
    MonInv cfg ty pshared ok least (init ty pshared w : State τ) where
  reach := ⟨[], .nil⟩
  located _ := .outside
  most _ := Nat.zero_le _
  least _ hno := absurd rfl hno
  sleepers := nofun

theorem MonInv.outside (h : MonInv cfg ty pshared ok least s)
    (hphase : phase (s.cond.pc t) = .outside) : s.inCall t = false := by
  have hl := h.located t
  rw [hphase] at hl
  generalize s.inCall t = b at hl
  cases hl
  rfl

theorem MutexType.most_pos (ty : Mutex.MutexType) : 0 < ty.most := by
  cases ty <;> decide

/-- A step of the mutex, for a thread that does not make a call of its own in the
middle of a wait. -/
theorem MonInv.mutex_step (h : MonInv cfg ty pshared ok least s)
    (hserved : Mutex.Served cfg ty pshared ok) {e : Mutex.Event τ} {m : Mutex.State τ}
    (hok : ok s.mutex e) (hm : Mutex.step cfg s.mutex e = some m)
    (hout : ∀ op, e = .call t op → phase (s.cond.pc t) = .outside) :
    Located m t (s.depth t) (phase (s.cond.pc t)) (s.inCall t) := by
  obtain ⟨es, hrun⟩ := h.reach
  have hl := h.located t
  cases Mutex.step_callStep hm with
  | @call u op he _ hlog hpc =>
      by_cases hu : t = u
      · subst hu
        have hphase := hout op he
        rw [hphase, h.outside hphase]
        exact .outside
      · refine hl.frame ?_ fun n => counts_of_log_eq hlog
        rw [hpc, if_neg hu]
  | inside _ hlog hop => exact hl.frame (hop t) fun n => counts_of_log_eq hlog
  | @ret u op r _ hlog hop hidle hothers =>
      by_cases hu : t = u
      · subst hu
        refine hl.ret hlog hop hidle ?_ ?_
        · rintro rfl hc
          exact hserved.unlock hrun hok hm hlog hc
        · rintro rfl hc
          have hmost := h.most t
          have hpos := MutexType.most_pos ty
          exact hserved.lock hrun hok hm hlog hc (by omega)
      · exact hl.frame (hothers t hu) fun n => counts_of_other hlog hu

theorem MonInv.snoc (h : MonInv cfg ty pshared ok least s) {e : Mutex.Event τ}
    {m : Mutex.State τ} (hok : ok s.mutex e) (hm : Mutex.step cfg s.mutex e = some m) :
    ∃ es, Run (Mutex.step cfg) ok (Mutex.init ty pshared) es m := by
  obtain ⟨es, hrun⟩ := h.reach
  exact ⟨_, hrun.snoc hok hm⟩

/-- A caller's own call, or a step in a mutex function. -/
theorem MonInv.mutex (h : MonInv cfg ty pshared ok least s)
    (hserved : Mutex.Served cfg ty pshared ok) {e : Mutex.Event τ} {m : Mutex.State τ}
    (hok : ok s.mutex e) (hmay : s.mayCall e = true) (hm : Mutex.step cfg s.mutex e = some m) :
    MonInv cfg ty pshared ok least (s.withMutex m) where
  reach := h.snoc hok hm
  located t := by
    refine h.mutex_step hserved hok hm ?_
    rintro op rfl
    have hidle : s.cond.pc t = .idle := by simpa [State.mayCall] using hmay
    rw [hidle]
    rfl
  most := h.most
  least := h.least
  sleepers := h.sleepers

/-- A wait calls `unlock` or `lock`. -/
theorem MonInv.enter (h : MonInv cfg ty pshared ok least s)
    (hserved : Mutex.Served cfg ty pshared ok) (hpromise : Promise ok guard least)
    {op : Mutex.Op} {m : Mutex.State τ} (hcall : mutexCall (s.cond.pc t) = some op)
    (hnot : s.inCall t = false) (hm : Mutex.step cfg s.mutex (.call t op) = some m) :
    MonInv cfg ty pshared ok least ((s.setCall t true).withMutex m) := by
  have hl := h.located t
  rw [hnot] at hl
  obtain ⟨hlog, hpc⟩ : m.log = s.mutex.log ∧ m.pc t = .enter op := by
    cases Mutex.step_fires hm with
    | call _ => exact ⟨rfl, by simp⟩
  obtain ⟨hok, hafter⟩ : ok s.mutex (.call t op) ∧
      Located m t (s.depth t) (phase (s.cond.pc t)) true := by
    rcases mutexCall_of_phase hcall with ⟨hphase, rfl⟩ | ⟨hphase, rfl⟩
    · have hleast := h.least t (by simp [hphase])
      rw [hphase] at hl ⊢
      cases hl with
      | toUnlock hi hc =>
          refine ⟨hpromise.call hi hc (fun _ => hleast) (.inl rfl), ?_⟩
          exact .unlocking (by rw [hpc]; rfl) (counts_of_log_eq hlog hc)
    · rw [hphase] at hl ⊢
      cases hl with
      | toLock hi hc =>
          refine ⟨hpromise.call hi hc nofun (.inr rfl), ?_⟩
          exact .locking (by rw [hpc]; rfl) (counts_of_log_eq hlog hc)
  refine ⟨h.snoc hok hm, fun u => ?_, h.most, h.least, h.sleepers⟩
  show Located m u (s.depth u) (phase (s.cond.pc u)) (Function.update s.inCall t true u)
  rw [Function.update_apply]
  split
  · next hu => rw [hu]; exact hafter
  · next hu =>
      refine h.mutex_step hserved hok hm ?_
      rintro op' heq
      injection heq with heq _
      exact absurd heq.symm hu

/-- The step in which a wait goes on after one of its two calls. -/
theorem leave_phase {c c' : Cond.State τ} {op : Mutex.Op} (hcall : mutexCall (c.pc t) = some op)
    (hs : Cond.step c (.step t) = some c') :
    (∀ u, u ≠ t → c'.pc u = c.pc u) ∧
      (phase (c.pc t) = .unlocking ∧ phase (c'.pc t) = .waiting ∨
        phase (c.pc t) = .locking ∧ phase (c'.pc t) = .outside) := by
  simp only [Cond.step] at hs
  split at hs
  · cases hs
  · cases hpc : c.pc t <;> rw [hpc] at hcall <;> simp only [mutexCall, reduceCtorEq] at hcall
    all_goals
      simp only [Cond.stepThread, hpc, Option.some.injEq] at hs
      subst hs
      refine ⟨fun u hu => Function.update_of_ne hu _ _, ?_⟩
      simp [Cond.State.setPc, phase]

/-- That function has returned. -/
theorem MonInv.leave (h : MonInv cfg ty pshared ok least s) {op : Mutex.Op} {c : Cond.State τ}
    (hcall : mutexCall (s.cond.pc t) = some op) (hin : s.inCall t = true)
    (hidle : s.mutex.pc t = .idle) (hc : Cond.step s.cond (.step t) = some c) :
    MonInv cfg ty pshared ok least ((s.setCall t false).withCond c) := by
  have hsleepers := h.sleepers.fires (Cond.step_fires hc)
  obtain ⟨hothers, hphases⟩ := leave_phase hcall hc
  have hl := h.located t
  rw [hin] at hl
  have hbusy : ∀ {op'}, (s.mutex.pc t).op ≠ some op' := by
    intro op' hno
    rw [hidle] at hno
    cases hno
  have hafter : Located s.mutex t (s.depth t) (phase (c.pc t)) false := by
    rcases hphases with ⟨hbefore, hafter⟩ | ⟨hbefore, hafter⟩
    · rw [hbefore] at hl
      rw [hafter]
      cases hl with
      | unlocking ho _ => exact absurd ho hbusy
      | unlocked hi hn => exact .waiting hi hn
    · rw [hafter]
      exact .outside
  refine ⟨h.reach, fun u => ?_, h.most, fun u hu => ?_, hsleepers⟩
  · show Located s.mutex u (s.depth u) (phase (c.pc u)) (Function.update s.inCall t false u)
    rw [Function.update_apply]
    split
    · next hu => rw [hu]; exact hafter
    · next hu =>
        rw [hothers u hu]
        exact h.located u
  · have hu : phase (c.pc u) ≠ .outside := hu
    by_cases hut : u = t
    · subst hut
      refine h.least u ?_
      rcases mutexCall_of_phase hcall with ⟨hp, -⟩ | ⟨hp, -⟩ <;> rw [hp] <;> decide
    · rw [hothers u hut] at hu
      exact h.least u hu

theorem startWait_pc {c c' : Cond.State τ} {timed : Bool}
    (hs : Cond.step c (.startWait t timed) = some c') (u : τ) :
    c'.pc u = if u = t then .read timed else c.pc u := by
  simp only [Cond.step] at hs
  split at hs
  · rw [Option.some.injEq] at hs
    subst hs
    exact Function.update_apply ..
  · cases hs

/-- A thread calls a wait. -/
theorem MonInv.startWait (h : MonInv cfg ty pshared ok least s)
    (hserved : Mutex.Served cfg ty pshared ok) {timed : Bool} {c : Cond.State τ}
    (hwait : ∀ n, Counts s.mutex t n → least ≤ n) (hidle : s.mutex.pc t = .idle)
    (hout : phase (s.cond.pc t) = .outside)
    (hc : Cond.step s.cond (.startWait t timed) = some c) :
    MonInv cfg ty pshared ok least ((s.remember t).withCond c) := by
  have hsleepers := h.sleepers.fires (Cond.step_fires hc)
  obtain ⟨es, hrun⟩ := h.reach
  obtain ⟨n, hmost, hn⟩ := hserved.most hrun hidle
  have hheld : s.held t = n := by
    rw [State.held, hn]
    omega
  have hdepth : ∀ u, ((s.remember t).withCond c).depth u = if u = t then n else s.depth u := by
    intro u
    show Function.update s.depth t (s.held t) u = _
    rw [Function.update_apply, hheld]
  have hpc : ∀ u, ((s.remember t).withCond c).cond.pc u =
      if u = t then .read timed else s.cond.pc u := startWait_pc hc
  refine ⟨h.reach, fun u => ?_, fun u => ?_, fun u hu => ?_, hsleepers⟩
  · rw [hdepth, hpc]
    split
    · next hu =>
        subst hu
        have hin : ((s.remember u).withCond c).inCall u = false := h.outside hout
        rw [hin]
        exact .reading hidle hn
    · exact h.located u
  · rw [hdepth]
    split
    · exact hmost
    · exact h.most u
  · rw [hdepth]
    rw [hpc] at hu
    split
    · exact hwait n hn
    · next hut =>
        rw [if_neg hut] at hu
        exact h.least u hu

/-- A thread goes on in a condition function, or goes on because it is woken. -/
theorem Located.phase_step {m : Mutex.State τ} {d : Nat} {p p' : Phase} {b : Bool}
    {e : Cond.Event τ} (h : Located m t d p b) (hstep : PhaseStep e t p p')
    (hstart : ∀ timed, e ≠ .startWait t timed)
    (hcall : e = .step t → p ≠ .unlocking ∧ p ≠ .locking) : Located m t d p' b := by
  cases hstep with
  | stay _ => exact h
  | start he => exact absurd he (hstart _)
  | read _ =>
      cases h with
      | reading hi hc => exact .toUnlock hi hc
  | unlocked he => exact absurd rfl (hcall he).1
  | woken =>
      cases h with
      | waiting hi hc => exact .toLock hi hc
  | locked he => exact absurd rfl (hcall he).2

/-- Any other step of a condition function. -/
theorem MonInv.cond (h : MonInv cfg ty pshared ok least s) {e : Cond.Event τ} {c : Cond.State τ}
    (hstart : ∀ t timed, e ≠ .startWait t timed) (hmay : s.mayTake e = true)
    (hc : Cond.step s.cond e = some c) : MonInv cfg ty pshared ok least (s.withCond c) := by
  have hsleepers := h.sleepers.fires (Cond.step_fires hc)
  have hphases := phase_step h.sleepers hc
  have hcall : ∀ u, e = .step u → phase (s.cond.pc u) ≠ .unlocking ∧
      phase (s.cond.pc u) ≠ .locking := by
    rintro u rfl
    exact mutexCall_eq_none (by simpa [State.mayTake] using hmay)
  refine ⟨h.reach, fun u => ?_, h.most, fun u hu => h.least u ?_, hsleepers⟩
  · exact (h.located u).phase_step (hphases u) (hstart u) (hcall u)
  · -- a thread in a wait was in it before
    intro hout
    have hstep := hphases u
    rw [hout] at hstep
    generalize hp : phase (c.pc u) = p at hstep
    cases hstep with
    | stay _ => exact hu hp
    | start he => exact hstart u _ he

theorem MonInv.step (h : MonInv cfg ty pshared ok least s)
    (hserved : Mutex.Served cfg ty pshared ok) (hpromise : Promise ok guard least)
    {e : Event τ} (hg : guard s e) (hs : Monitor.step cfg s e = some s') :
    MonInv cfg ty pshared ok least s' := by
  cases step_fires hs with
  | mutex hmay hm => exact h.mutex hserved (hpromise.mutex hg) hmay hm
  | enter hcall hnot hm => exact h.enter hserved hpromise hcall hnot hm
  | leave hcall hin hidle hc => exact h.leave hcall hin hidle hc
  | @cond e c hmay hc =>
      by_cases hstart : ∃ t timed, e = .startWait t timed
      · obtain ⟨t, timed, rfl⟩ := hstart
        have hidle : s.cond.pc t = .idle := by
          by_contra hno
          simp [Cond.step, hno] at hc
        refine h.startWait hserved (fun n hn => hpromise.wait hg hn) ?_ (by rw [hidle]; rfl) hc
        simpa [State.mayTake] using hmay
      · have hstart : ∀ t timed, e ≠ .startWait t timed := fun t timed he => hstart ⟨t, timed, he⟩
        have hsame : s.onCall e = s := by
          cases e with
          | startWait t timed => exact absurd rfl (hstart t timed)
          | _ => rfl
        rw [hsame]
        exact h.cond hstart hmay hc

theorem monInv_reachable (hserved : Mutex.Served cfg ty pshared ok)
    (hpromise : Promise ok guard least) {w : Cond.Word} {es : List (Event τ)}
    (hrun : Run (Monitor.step cfg) guard (init ty pshared w) es s) :
    MonInv cfg ty pshared ok least s := by
  refine hrun.invariant (I := MonInv cfg ty pshared ok least) (MonInv.init w) ?_
  intro s e s' h hg hs
  exact h.step hserved hpromise hg hs

end Run

/-! ## What the caller of a wait finds -/

section Results

variable {cfg : Mutex.Config τ} {ty : Mutex.MutexType} {pshared : Bool} {w : Cond.Word}
  {s s' : State τ} {t : τ} {es : List (Event τ)}

/-- The wait of `t` returns in this step. -/
theorem leave_returns {b : Bool} (hpc : s.cond.pc t = .lockMutex b)
    (hs : step cfg s (.leave t) = some s') :
    s.inCall t = true ∧ s.mutex.pc t = .idle ∧ s'.mutex = s.mutex ∧ s'.cond.pc t = .idle := by
  cases step_fires hs with
  | @leave _ op c hcall hin hidle hc =>
      refine ⟨hin, hidle, rfl, ?_⟩
      simp only [Cond.step] at hc
      split at hc
      · cases hc
      · simp only [Cond.stepThread, hpc, Option.some.injEq] at hc
        subst hc
        exact Function.update_self ..

theorem MonInv.counts_waiting {ok : Mutex.State τ → Mutex.Event τ → Prop} {least : Nat}
    (h : MonInv cfg ty pshared ok least s) (hphase : phase (s.cond.pc t) = .waiting) :
    s.mutex.pc t = .idle ∧ Counts s.mutex t (s.depth t - 1) := by
  have hl := h.located t
  rw [hphase] at hl
  generalize s.inCall t = b at hl
  cases hl with
  | waiting hi hc => exact ⟨hi, hc⟩

theorem MonInv.counts_returning {ok : Mutex.State τ → Mutex.Event τ → Prop} {least : Nat}
    (h : MonInv cfg ty pshared ok least s) {b : Bool} (hpc : s.cond.pc t = .lockMutex b)
    (hin : s.inCall t = true) (hidle : s.mutex.pc t = .idle) :
    Counts s.mutex t (max 1 (s.depth t)) := by
  have hl := h.located t
  rw [hpc, hin] at hl
  cases hl with
  | locking ho _ =>
      rw [hidle] at ho
      cases ho
  | locked _ hc =>
      rw [Counts] at hc ⊢
      omega

theorem always_promise : Promise (τ := τ) always always 0 where
  mutex _ := trivial
  wait _ _ := Nat.zero_le _
  call _ _ _ _ := trivial

/-- On a recursive or errorcheck mutex, in every state of every run: a thread at
the futex wait of its wait holds the mutex once less than when it called, and
when its wait returns it holds it as often as then, or once if it did not. -/
theorem wait_restores_depth (ht : cfg.TidsOk) (hty : ty ≠ .normal)
    (hrun : Run (step cfg) always (init ty pshared w) es s) :
    ∃ a, Mutex.OwnedView cfg ty pshared s.mutex a ∧ ∀ t,
      (∀ timed old, s.cond.pc t = .wait timed old → a.depthOf t = s.depth t - 1) ∧
      ∀ b s', s.cond.pc t = .lockMutex b → step cfg s (.leave t) = some s' →
        s'.mutex = s.mutex ∧ s'.cond.pc t = .idle ∧ a.depthOf t = max 1 (s.depth t) := by
  have hinv := monInv_reachable (Mutex.served_recursive ht hty) always_promise hrun
  obtain ⟨es', hmutex⟩ := hinv.reach
  obtain ⟨a, hrec⟩ := Mutex.recInv_reachable ht hty hmutex
  have hdepth : ∀ {t n}, s.mutex.pc t = .idle → Counts s.mutex t n → a.depthOf t = n := by
    intro t n hidle hn
    have hbooks := hrec.books t
    rw [hidle, show Mutex.Pc.idle.owes = 0 from rfl] at hbooks
    rw [Counts] at hn
    omega
  refine ⟨a, hrec.view ht, fun t => ⟨fun timed old hpc => ?_, fun b s' hpc hs => ?_⟩⟩
  · obtain ⟨hidle, hn⟩ := hinv.counts_waiting (t := t) (by rw [hpc]; rfl)
    exact hdepth hidle hn
  · obtain ⟨hin, hidle, hsame, hout⟩ := leave_returns hpc hs
    exact ⟨hsame, hout, hdepth hidle (hinv.counts_returning hpc hin hidle)⟩

/-- Only the holder of a normal mutex unlocks it or waits with it. -/
def HolderCalls (s : State τ) : Event τ → Prop
  | .mutex (.call t .unlock) => Mutex.Holds s.mutex t
  | .cond (.startWait t _) => Mutex.Holds s.mutex t
  | _ => True

instance (m : Mutex.State τ) (t : τ) : Decidable (Mutex.Holds m t) :=
  inferInstanceAs (Decidable (_ ∧ _))

instance (s : State τ) : (e : Event τ) → Decidable (HolderCalls s e)
  | .mutex (.call t .unlock) => inferInstanceAs (Decidable (Mutex.Holds s.mutex t))
  | .cond (.startWait t _) => inferInstanceAs (Decidable (Mutex.Holds s.mutex t))
  | .mutex (.call _ .lock) | .mutex (.call _ .trylock) | .mutex (.call _ .lockTimeoutNp)
  | .mutex (.step _) | .mutex (.expire _) | .mutex (.wake _ _) | .mutex (.interrupt _)
  | .mutex (.timeout _) | .cond (.pulse _ _) | .cond (.step _) | .cond (.wake _ _)
  | .cond (.interrupt _) | .cond (.timeout _) | .enter _ | .leave _ => .isTrue trivial

theorem holderCalls_promise : Promise (τ := τ) Mutex.HolderUnlocks HolderCalls 1 where
  mutex {s e} h := by
    cases e with
    | call t op =>
        cases op with
        | unlock => exact h
        | lock | trylock | lockTimeoutNp => trivial
    | _ => trivial
  wait {s t timed n} h hn := by
    have hlt : s.mutex.unlocks t < s.mutex.locks t := h.1
    rw [Counts] at hn
    omega
  call {m t n op} hidle hn hleast hop := by
    rcases hop with rfl | rfl
    · have hpos := hleast rfl
      rw [Counts] at hn
      exact ⟨by omega, by rw [hidle]; rfl⟩
    · trivial

/-- On a normal mutex, in every state of every run in which its holder alone
unlocks it and waits with it: at most one thread holds it, a thread at the futex
wait of its wait does not, and a thread whose wait returns does. -/
theorem wait_excludes (hrun : Run (step cfg) HolderCalls (init .normal pshared w) es s) :
    (∀ t u, Mutex.Holds s.mutex t → Mutex.Holds s.mutex u → t = u) ∧
    (∀ t timed old, s.cond.pc t = .wait timed old → ¬ Mutex.Holds s.mutex t) ∧
    ∀ t b s', s.cond.pc t = .lockMutex b → step cfg s (.leave t) = some s' →
      s'.cond.pc t = .idle ∧ Mutex.Holds s'.mutex t := by
  have hinv := monInv_reachable Mutex.served_normal holderCalls_promise hrun
  obtain ⟨es', hmutex⟩ := hinv.reach
  obtain ⟨st, h, hnorm⟩ := Mutex.normInv_reachable hmutex
  refine ⟨fun t u htold huold => ?_, fun t timed old hpc hholds => ?_, fun t b s' hpc hs => ?_⟩
  · rw [hnorm.holds_iff] at htold huold
    rw [htold] at huold
    exact Option.some.inj huold
  · obtain ⟨-, hn⟩ := hinv.counts_waiting (t := t) (by rw [hpc]; rfl)
    have hmost : s.depth t ≤ 1 := hinv.most t
    have hlt := hholds.1
    rw [Counts] at hn
    omega
  · obtain ⟨hin, hidle, hsame, hout⟩ := leave_returns hpc hs
    have hn := hinv.counts_returning hpc hin hidle
    refine ⟨hout, ?_⟩
    rw [hsame]
    rw [Counts] at hn
    exact ⟨by omega, by rw [hidle]; rfl⟩

end Results

/-! ## A thread waits and is signalled -/

/-- Thread `a` locks the mutex and waits until it sleeps; thread `b` locks it,
signals, and unlocks; thread `a` locks the mutex again. -/
def waitAndSignal {T : Type} (a b : T) : List (Event T) :=
  [.mutex (.call a .lock), .mutex (.step a), .mutex (.step a), .cond (.startWait a false),
    .cond (.step a), .enter a, .mutex (.step a), .mutex (.step a), .leave a, .cond (.step a),
    .mutex (.call b .lock), .mutex (.step b), .mutex (.step b), .cond (.pulse b .signal),
    .cond (.step b), .cond (.step b), .cond (.step b), .cond (.wake b [a]),
    .mutex (.call b .unlock), .mutex (.step b), .mutex (.step b), .enter a, .mutex (.step a),
    .mutex (.step a)]

theorem wait_restores_depth_signalled :
    ∃ s, Run (step Mutex.twoThreads) always (init .recursive false 0#32) (waitAndSignal 0 1) s ∧
      s.cond.pc 0 = .lockMutex false ∧ s.depth 0 = 1 ∧
      ∃ a, Mutex.OwnedView Mutex.twoThreads .recursive false s.mutex a ∧ a.depthOf 0 = 1 := by
  have hsome : (runEvents (step Mutex.twoThreads) (init .recursive false 0#32)
      (waitAndSignal 0 1)).isSome := by decide
  have hrun : Run (step Mutex.twoThreads) always (init .recursive false 0#32)
      (waitAndSignal 0 1) _ :=
    Run.of_runEvents (fun _ _ _ => trivial) (Option.some_get hsome).symm
  obtain ⟨a, hview, hall⟩ := wait_restores_depth Mutex.twoThreads_tidsOk (by decide) hrun
  have hleave : (step Mutex.twoThreads (Option.get _ hsome) (.leave 0)).isSome := rfl
  obtain ⟨-, -, hdepth⟩ := (hall 0).2 false _ rfl (Option.some_get hleave).symm
  exact ⟨_, hrun, rfl, rfl, a, hview, hdepth⟩

/-- The same with a normal mutex. -/
theorem wait_excludes_signalled :
    ∃ s, Run (step Mutex.twoThreads) HolderCalls (init .normal false 0#32) (waitAndSignal 0 1) s ∧
      ∃ s', step Mutex.twoThreads s (.leave 0) = some s' ∧ s'.cond.pc 0 = .idle ∧
        Mutex.Holds s'.mutex 0 := by
  have hsome : (runEvents (fun s e => if HolderCalls s e then step Mutex.twoThreads s e else none)
      (init .normal false 0#32) (waitAndSignal 0 1)).isSome := by decide
  have hrun : Run (step Mutex.twoThreads) HolderCalls (init .normal false 0#32)
      (waitAndSignal 0 1) _ :=
    Run.of_checked (Option.some_get hsome).symm
  have hleave : (step Mutex.twoThreads (Option.get _ hsome) (.leave 0)).isSome := rfl
  have hs := (Option.some_get hleave).symm
  exact ⟨_, hrun, _, hs, (wait_excludes hrun).2.2 0 false _ rfl hs⟩

end Pisces.Monitor
