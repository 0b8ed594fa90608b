import Pisces.Cond
import Pisces.Mutex.Calls

/-!
# A mutex with a condition variable

A wait on a condition variable makes two calls of its own: it unlocks the
mutex before its futex wait and locks it again afterwards, and it looks at the
result of neither. `Pisces.Cond` has these two calls as steps that do nothing,
`Pisces.Mutex` has the functions that they call. Here the two are one system.

A thread is in at most one of them at a time. While it is at one of the two
calls of a wait it takes the steps of the mutex function, and `inCall` says
whether it has entered that function yet. What the mutex sees of a run is then
a run of the mutex, whatever the waiters do, and what the condition variable
sees is a run of the condition variable.

Two history variables are kept for each thread, both from its last call of a
wait: how often it held the mutex, and how many pulses had completed.
-/

namespace Pisces.Monitor

open Pisces.Lib

structure State (τ : Type) where
  mutex : Mutex.State τ
  cond : Cond.State τ
  inCall : τ → Bool
  depth : τ → Nat
  since : τ → Nat

inductive Event (τ : Type) where
  /-- A caller's own call of a mutex function, or a step in one. -/
  | mutex (e : Mutex.Event τ)
  /-- A call or a step of a condition function, except for the two calls that a
  wait makes. -/
  | cond (e : Cond.Event τ)
  /-- A wait calls a mutex function. -/
  | enter (t : τ)
  /-- That function has returned. -/
  | leave (t : τ)

/-- The mutex function that a wait calls at this point. -/
def mutexCall : Cond.Pc → Option Mutex.Op
  | .unlockMutex _ _ => some .unlock
  | .lockMutex _ => some .lock
  | _ => none

section

variable {τ : Type} [DecidableEq τ]

/-- How often `t` has come back from an acquire without an `unlock` since. -/
def State.held (s : State τ) (t : τ) : Nat := s.mutex.locks t - s.mutex.unlocks t

def State.withMutex (s : State τ) (m : Mutex.State τ) : State τ := { s with mutex := m }

def State.withCond (s : State τ) (c : Cond.State τ) : State τ := { s with cond := c }

def State.setCall (s : State τ) (t : τ) (b : Bool) : State τ :=
  { s with inCall := Function.update s.inCall t b }

/-- What is remembered of a call of a wait. -/
def State.remember (s : State τ) (t : τ) : State τ :=
  { s with
    depth := Function.update s.depth t (s.held t)
    since := Function.update s.since t s.cond.pulses }

/-- A thread in a condition function makes no calls of its own. -/
def State.mayCall (s : State τ) : Mutex.Event τ → Bool
  | .call t _ => s.cond.pc t = .idle
  | _ => true

/-- A thread in a mutex function makes no calls either. -/
def State.mayTake (s : State τ) : Cond.Event τ → Bool
  | .pulse t _ | .startWait t _ => s.mutex.pc t = .idle
  | .step t => mutexCall (s.cond.pc t) = none
  | _ => true

def State.onCall (s : State τ) : Cond.Event τ → State τ
  | .startWait t _ => s.remember t
  | _ => s

def step (cfg : Mutex.Config τ) (s : State τ) : Event τ → Option (State τ)
  | .mutex e =>
      if s.mayCall e then (Mutex.step cfg s.mutex e).map s.withMutex else none
  | .cond e =>
      if s.mayTake e then (Cond.step s.cond e).map (s.onCall e).withCond else none
  | .enter t =>
      match mutexCall (s.cond.pc t) with
      | some op =>
          if s.inCall t then none
          else (Mutex.step cfg s.mutex (.call t op)).map fun m => (s.setCall t true).withMutex m
      | none => none
  | .leave t =>
      match mutexCall (s.cond.pc t) with
      | some _ =>
          if s.inCall t ∧ s.mutex.pc t = .idle then
            (Cond.step s.cond (.step t)).map fun c => (s.setCall t false).withCond c
          else none
      | none => none

/-- A mutex and a condition variable fresh from their init functions. -/
def init (ty : Mutex.MutexType) (pshared : Bool) (w : Cond.Word) : State τ where
  mutex := Mutex.init ty pshared
  cond := Cond.init w
  inCall _ := false
  depth _ := 0
  since _ := 0

end

/-! ## What a step can do -/

section Fires

variable {τ : Type} [DecidableEq τ]

/-- `Fires cfg s e s'`: event `e` takes `s` to `s'`. -/
inductive Fires (cfg : Mutex.Config τ) (s : State τ) : Event τ → State τ → Prop
  | mutex {e : Mutex.Event τ} {m : Mutex.State τ} : s.mayCall e = true →
      Mutex.step cfg s.mutex e = some m → Fires cfg s (.mutex e) (s.withMutex m)
  | cond {e : Cond.Event τ} {c : Cond.State τ} : s.mayTake e = true →
      Cond.step s.cond e = some c → Fires cfg s (.cond e) ((s.onCall e).withCond c)
  | enter {t : τ} {op : Mutex.Op} {m : Mutex.State τ} : mutexCall (s.cond.pc t) = some op →
      s.inCall t = false → Mutex.step cfg s.mutex (.call t op) = some m →
      Fires cfg s (.enter t) ((s.setCall t true).withMutex m)
  | leave {t : τ} {op : Mutex.Op} {c : Cond.State τ} : mutexCall (s.cond.pc t) = some op →
      s.inCall t = true → s.mutex.pc t = .idle → Cond.step s.cond (.step t) = some c →
      Fires cfg s (.leave t) ((s.setCall t false).withCond c)

theorem step_fires {cfg : Mutex.Config τ} {s s' : State τ} {e : Event τ}
    (h : step cfg s e = some s') : Fires cfg s e s' := by
  cases e with
  | mutex e =>
      simp only [step] at h
      split at h
      · next hmay =>
          obtain ⟨m, hm, rfl⟩ := Option.map_eq_some_iff.mp h
          exact .mutex hmay hm
      · cases h
  | cond e =>
      simp only [step] at h
      split at h
      · next hmay =>
          obtain ⟨c, hc, rfl⟩ := Option.map_eq_some_iff.mp h
          exact .cond hmay hc
      · cases h
  | enter t =>
      simp only [step] at h
      split at h
      · next op hop =>
          split at h
          · cases h
          · next hcall =>
              obtain ⟨m, hm, rfl⟩ := Option.map_eq_some_iff.mp h
              exact .enter hop (Bool.eq_false_iff.mpr hcall) hm
      · cases h
  | leave t =>
      simp only [step] at h
      split at h
      · next op hop =>
          split at h
          · next hg =>
              obtain ⟨c, hc, rfl⟩ := Option.map_eq_some_iff.mp h
              exact .leave hop hg.1 hg.2 hc
          · cases h
      · cases h

end Fires

/-! ## The phases of a wait -/

inductive Phase where
  | outside
  | reading
  | unlocking
  | waiting
  | locking
  deriving DecidableEq

def phase : Cond.Pc → Phase
  | .read _ => .reading
  | .unlockMutex _ _ => .unlocking
  | .wait _ _ => .waiting
  | .lockMutex _ => .locking
  | .idle | .flags _ | .load _ _ | .cas _ _ _ | .wake _ => .outside

theorem mutexCall_of_phase {pc : Cond.Pc} {op : Mutex.Op} (h : mutexCall pc = some op) :
    phase pc = .unlocking ∧ op = .unlock ∨ phase pc = .locking ∧ op = .lock := by
  cases pc <;> simp_all [mutexCall, phase]

theorem mutexCall_eq_none {pc : Cond.Pc} (h : mutexCall pc = none) :
    phase pc ≠ .unlocking ∧ phase pc ≠ .locking := by
  cases pc <;> simp_all [mutexCall, phase]

/-- How an event moves thread `u` from phase to phase. -/
inductive PhaseStep {τ : Type} (e : Cond.Event τ) (u : τ) : Phase → Phase → Prop
  | stay {p : Phase} : (∀ timed, e ≠ .startWait u timed) → PhaseStep e u p p
  | start {timed : Bool} : e = .startWait u timed → PhaseStep e u .outside .reading
  | read : e = .step u → PhaseStep e u .reading .unlocking
  | unlocked : e = .step u → PhaseStep e u .unlocking .waiting
  | woken : PhaseStep e u .waiting .locking
  | locked : e = .step u → PhaseStep e u .locking .outside

section Cond

variable {τ : Type} [DecidableEq τ] {c c' : Cond.State τ} {e : Cond.Event τ}

theorem phase_eq_waiting {pc : Cond.Pc} (h : pc.isWait = true) : phase pc = .waiting := by
  cases pc <;> first | rfl | cases h

omit [DecidableEq τ] in
theorem own_phaseStep {word : Cond.Word} {pc pc' : Cond.Pc} {t : τ} (h : Cond.Own word pc pc') :
    PhaseStep (.step t) t (phase pc) (phase pc') := by
  cases h with
  | flags | load | retry =>
      refine .stay ?_
      rintro _ ⟨⟩
  | read => exact .read rfl
  | unlocked => exact .unlocked rfl
  | changed _ => exact .woken
  | locked => exact .locked rfl

/-- One thread moves, the others stay. -/
theorem phaseStep_update {t : τ} {pc : Cond.Pc} (hpc : ∀ u, c'.pc u = Function.update c.pc t pc u)
    (ht : PhaseStep e t (phase (c.pc t)) (phase pc))
    (hothers : ∀ u timed, u ≠ t → e ≠ .startWait u timed) (u : τ) :
    PhaseStep e u (phase (c.pc u)) (phase (c'.pc u)) := by
  rw [hpc, Function.update_apply]
  split
  · next hu => rw [hu]; exact ht
  · next hu => exact .stay fun timed => hothers u timed hu

/-- The sleepers that go on are at their wait. -/
theorem phaseStep_resume (h : Cond.SleepersWait c) {us : List τ} {b : Bool}
    (hus : ∀ u ∈ us, c.asleep u = true) (he : ∀ u timed, e ≠ .startWait u timed) (u : τ) :
    PhaseStep e u (phase (c.pc u)) (phase ((c.resume us b).pc u)) := by
  show PhaseStep e u (phase (c.pc u)) (phase (if u ∈ us then .lockMutex b else c.pc u))
  split
  · next hu =>
      rw [phase_eq_waiting (h.of_asleep (hus u hu))]
      exact .woken
  · exact .stay (he u)

theorem phase_step (h : Cond.SleepersWait c) (hs : Cond.step c e = some c') (u : τ) :
    PhaseStep e u (phase (c.pc u)) (phase (c'.pc u)) := by
  cases Cond.step_fires hs with
  | @pulse t p hidle | @startWait t timed hidle =>
      have hout : phase (c.pc t) = .outside := by
        rw [hidle]
        rfl
      refine phaseStep_update (fun _ => rfl) ?_ ?_ u
      · rw [hout]
        first | exact .start rfl | exact .stay (by rintro _ ⟨⟩)
      · intro u timed' hu heq
        cases heq <;> exact hu rfl
  | own hnot hown =>
      refine phaseStep_update (fun _ => rfl) (own_phaseStep hown) ?_ u
      rintro _ _ _ ⟨⟩
  | swap hnot hpc =>
      refine phaseStep_update (fun _ => rfl) ?_ ?_ u
      · rw [hpc]
        refine .stay ?_
        rintro _ ⟨⟩
      · rintro _ _ _ ⟨⟩
  | sleep _ _ => exact .stay (by rintro _ ⟨⟩)
  | interrupt hasleep | timeout _ hasleep =>
      refine phaseStep_resume h (by simpa using hasleep) ?_ u
      rintro _ _ ⟨⟩
  | @wake t p woken hpc hmem _ _ =>
      have hus : ∀ u ∈ woken, c.asleep u = true := fun u hu => Cond.asleep_of_wakeable (hmem u hu)
      have hout : phase (c.pc t) = .outside := by
        rw [hpc]
        rfl
      show PhaseStep _ u _ (phase (Function.update (c.resume woken false).pc t .idle u))
      rw [Function.update_apply]
      split
      · next hu =>
          rw [hu, hout]
          refine .stay ?_
          rintro _ ⟨⟩
      · refine phaseStep_resume (e := .wake t woken) h hus ?_ u
        rintro _ _ ⟨⟩

end Cond

end Pisces.Monitor
