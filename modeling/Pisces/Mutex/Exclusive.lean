import Pisces.Mutex.Progress

/-!
# Down to `ldrex` and `strex`

The model of the four functions takes `__bionic_cmpxchg`, `__bionic_swap` and
`__bionic_atomic_dec` as single steps. In `bionic_atomic_arm.h` each of them is a
loop of a load (`ldrex`) that takes an exclusive monitor and a store (`strex`) that
goes through only while the monitor is still there; any store to the word takes it
from everybody, and it may also be lost for no reason, as on a context switch. The
machine of this file runs the functions at that level, and `exclusive_refines` says
that nothing new can be seen there: every run of it is a run of single steps with
the same word and the same results for every thread, and the other way round.

A compare-and-exchange that fails stores nothing, and then the answer is already
settled at its load: the word may change and change back before the caller sees it.
So the run of single steps takes such a step early, and the thread is ahead there by
its failed exchange (`ExState.ahead`). A store that goes through finds in the word
what the load found, which is all that the single step needs.
-/

namespace Pisces.Mutex

open Pisces.Lib

variable {τ : Type}

/-- The functions of `bionic_atomic_arm.h`, each with what its caller does next. -/
inductive Rmw where
  /-- `__bionic_cmpxchg(old, new, ..)` -/
  | cmpxchg (old new : Word) (ok fail : Next)
  /-- `__bionic_swap(new, ..)`, and the caller's use of `prev` -/
  | swap (new : Word) (next : Word → Next)
  /-- `__bionic_atomic_dec(..)`, and the caller's use of `prev` -/
  | dec (next : Word → Next)

/-- What is given to `strex` after `ldrex` has read `prev`; for `strexeq` nothing if
`teq` found a difference. -/
def Rmw.store (prev : Word) : Rmw → Option Word
  | .cmpxchg old new _ _ => if prev = old then some new else none
  | .swap new _ => some new
  | .dec _ => some (prev - 1#32)

/-- What the caller does once the loop has ended with `prev`. -/
def Rmw.next (prev : Word) : Rmw → Next
  | .cmpxchg old _ ok fail => if prev = old then ok else fail
  | .swap _ next | .dec next => next prev

/-- The places in the four functions where one of the three is called. -/
def Pc.rmw (tid : Word) : Pc → Option Rmw
  | .nLock op shared =>
      some (.cmpxchg (shared ||| mutexStateBitsUnlocked)
        (shared ||| mutexStateBitsLockedUncontended) (.ret op .ok) (.goto (.nSwap op shared)))
  | .nSwap op shared =>
      some (.swap (shared ||| mutexStateBitsLockedContended) fun prev =>
        if prev = shared ||| mutexStateBitsUnlocked then .ret op .ok
        else if op = .lockTimeoutNp then .goto (.nClock shared)
        else .goto (.nWait op shared))
  | .nTry shared =>
      some (.cmpxchg (shared ||| mutexStateBitsUnlocked)
        (shared ||| mutexStateBitsLockedUncontended) (.ret .trylock .ok) (.ret .trylock .ebusy))
  | .nDec shared =>
      some (.dec fun prev =>
        if prev ≠ shared ||| mutexStateBitsLockedUncontended then .goto (.nStore shared)
        else .ret .unlock .ok)
  | .incr op mvalue =>
      some (.cmpxchg mvalue (mvalue + mutexCounterBitsOne) (.ret op .ok) (.goto (.incrReload op)))
  | .quick op mtype =>
      some (.cmpxchg mtype (ownedBy tid mtype mutexStateBitsLockedUncontended) (.ret op .ok)
        (.goto (.reload op mtype)))
  | .acquire op mtype =>
      some (.cmpxchg mtype (ownedBy tid mtype mutexStateBitsLockedContended) (.ret op .ok)
        (if op = .lockTimeoutNp then .goto (.acquireClock mtype) else .goto (.reload op mtype)))
  | .flip op mtype mvalue =>
      some (.cmpxchg mvalue (mutexStateBitsFlipContention mvalue)
        (if op = .lockTimeoutNp then .goto (.clock mtype (mutexStateBitsFlipContention mvalue))
          else .goto (.wait op mtype (mutexStateBitsFlipContention mvalue)))
        (if op = .lockTimeoutNp then .goto (.flipReload mtype) else .goto (.reload op mtype)))
  | .tryAcquire mtype =>
      some (.cmpxchg mtype (ownedBy tid mtype mutexStateBitsLockedUncontended) (.ret .trylock .ok)
        (.ret .trylock .ebusy))
  | .dec mvalue =>
      some (.cmpxchg mvalue (mvalue - mutexCounterBitsOne) (.ret .unlock .ok) (.goto .decReload))
  | .swap newval shared =>
      some (.swap newval fun prev =>
        if mutexStateBitsIsLockedContended prev then .goto (.wake shared) else .ret .unlock .ok)
  | .idle | .enter _ | .nClock _ | .nWait _ _ | .nStore _ | .nWake _ | .incrReload _
  | .reload _ _ | .acquireClock _ | .flipReload _ | .clock _ _ | .wait _ _ _ | .decReload
  | .wake _ => none

/-- A plain store to the word. -/
def Pc.stores : Pc → Bool
  | .nStore _ => true
  | _ => false

/-! ## The machine -/

/-- The mutex, what each thread that is between its `ldrex` and its `strex` has read, and
who has an exclusive monitor on the word. -/
structure ExState (τ : Type) where
  mutex : State τ
  prev : τ → Option Word
  exclusive : τ → Bool

/-- What can happen next. -/
inductive ExEvent (τ : Type) where
  /-- A thread at one of the three loops loads the word. -/
  | ldrex (t : τ)
  /-- It comes to its store; `lost` if its monitor has been lost for no reason. -/
  | strex (t : τ) (lost : Bool)
  /-- Anything else. -/
  | mutex (e : Event τ)

variable [DecidableEq τ]

/-- The load takes a monitor. -/
def ExState.loaded (x : ExState τ) (t : τ) : ExState τ where
  mutex := x.mutex
  prev := Function.update x.prev t (some x.mutex.word)
  exclusive := Function.update x.exclusive t true

/-- The store takes everybody's monitor. -/
def ExState.stored (x : ExState τ) (t : τ) (w : Word) (nx : Next) : ExState τ where
  mutex := x.mutex.advance t w nx
  prev := Function.update x.prev t none
  exclusive _ := false

@[simp] theorem stored_mutex (x : ExState τ) (t : τ) (w : Word) (nx : Next) :
    (x.stored t w nx).mutex = x.mutex.advance t w nx := rfl

/-- `status` is 1, and the loop starts over. -/
def ExState.again (x : ExState τ) (t : τ) : ExState τ where
  mutex := x.mutex
  prev := Function.update x.prev t none
  exclusive := Function.update x.exclusive t false

/-- `strexeq` is skipped, and `status` is 0. -/
def ExState.skipped (x : ExState τ) (t : τ) (nx : Next) : ExState τ where
  mutex := x.mutex.advance t x.mutex.word nx
  prev := Function.update x.prev t none
  exclusive := x.exclusive

@[simp] theorem skipped_mutex (x : ExState τ) (t : τ) (nx : Next) :
    (x.skipped t nx).mutex = x.mutex.advance t x.mutex.word nx := rfl

/-- Which of the single steps stay single steps here. -/
def Event.isPlain (cfg : Config τ) (s : State τ) : Event τ → Bool
  | .step t => ((s.pc t).rmw (cfg.tid t)).isNone
  | _ => true

/-- A plain store takes everybody's monitor too. -/
def Event.isStore (s : State τ) : Event τ → Bool
  | .step t => (s.pc t).stores
  | _ => false

def exStep (cfg : Config τ) (x : ExState τ) : ExEvent τ → Option (ExState τ)
  | .ldrex t =>
      if t ∉ x.mutex.queue ∧ x.prev t = none ∧ ((x.mutex.pc t).rmw (cfg.tid t)).isSome then
        some (x.loaded t)
      else none
  | .strex t lost =>
      (x.prev t).bind fun prev =>
        ((x.mutex.pc t).rmw (cfg.tid t)).map fun op =>
          match op.store prev with
          | none => x.skipped t (op.next prev)
          | some w => if x.exclusive t ∧ ¬ lost then x.stored t w (op.next prev) else x.again t
  | .mutex e =>
      if e.isPlain cfg x.mutex then
        (step cfg x.mutex e).map fun m =>
          { x with mutex := m, exclusive := fun t => x.exclusive t && !e.isStore x.mutex }
      else none

def exInit (ty : MutexType) (pshared : Bool) : ExState τ where
  mutex := init ty pshared
  prev _ := none
  exclusive _ := false

/-! ## The three loops and the single steps -/

section Places

variable {pc pc' : Pc} {tid w w' : Word} {op : Rmw} {nx : Next}

/-- If nobody is in between, load and store are the single step. -/
theorem Pc.step_of_rmw (h : pc.rmw tid = some op) (w : Word) :
    pc.step tid w = some ((op.store w).getD w, op.next w) := by
  cases pc <;> simp only [Pc.rmw, reduceCtorEq, Option.some.injEq] at h <;> subst h <;>
    simp only [Pc.step, bionicCmpxchg, Rmw.store, Rmw.next, Option.getD_some]
  all_goals split <;> rfl

theorem Pc.next_ne_sleep (h : pc.rmw tid = some op) (w : Word) : op.next w ≠ .sleep := by
  cases pc <;> simp only [Pc.rmw, reduceCtorEq, Option.some.injEq] at h <;> subst h <;>
    simp only [Rmw.next] <;> repeat' split
  all_goals simp

/-- Of the other steps only the plain stores change the word. -/
theorem Pc.step_plain (h : pc.rmw tid = none) (hs : pc.step tid w = some (w', nx)) :
    w' = w ∨ pc.stores = true := by
  cases pc <;> simp only [Pc.rmw, reduceCtorEq] at h <;>
    simp only [Pc.step, reduceCtorEq, Option.some.injEq, Prod.mk.injEq] at hs
  case nStore => exact .inr rfl
  all_goals exact .inl hs.1.symm

theorem Pc.rmw_of_isClock (h : pc.isClock = true) : pc.rmw tid = none := by
  cases pc <;> first | rfl | cases h

theorem Pc.rmw_of_wakesShared {sh : Bool} (h : pc.wakesShared = some sh) : pc.rmw tid = none := by
  cases pc <;> first | rfl | cases h

end Places

/-! ## The calls of one thread -/

/-- The calls of `t` that have returned, newest first. -/
def State.calls (s : State τ) (t : τ) : List (τ × Op × Ret) := s.log.filter fun c => c.1 = t

/-- What a step of `t` adds to them. -/
def Next.returned (t : τ) : Next → List (τ × Op × Ret)
  | .ret op r => [(t, op, r)]
  | .goto _ | .sleep => []

variable {cfg : Config τ} {ty : MutexType} {pshared : Bool} {s s' : State τ} {t u : τ} {op : Op}
  {r : Ret}

theorem calls_of_log_eq (h : s'.log = s.log) (u : τ) : s'.calls u = s.calls u := by
  rw [State.calls, State.calls, h]

theorem calls_of_log_cons (h : s'.log = (t, op, r) :: s.log) (u : τ) :
    s'.calls u = (if u = t then [(t, op, r)] else []) ++ s.calls u := by
  rw [State.calls, State.calls, h, List.filter_cons]
  by_cases hu : u = t
  · simp [hu]
  · simp [hu, Ne.symm hu]

theorem calls_of_quiet (h : s'.log = s.log) (t u : τ) :
    s'.calls u = (if u = t then [] else []) ++ s.calls u := by
  rw [ite_self]
  exact calls_of_log_eq h u

theorem advance_calls (s : State τ) (t : τ) (w : Word) (nx : Next) (u : τ) :
    (s.advance t w nx).calls u = (if u = t then nx.returned t else []) ++ s.calls u := by
  cases nx with
  | goto _ | sleep =>
      rw [Next.returned, ite_self]
      exact calls_of_log_eq rfl u
  | ret op r => exact calls_of_log_cons rfl u

/-- They are what the counts are about. -/
theorem locks_eq_calls (s : State τ) (t : τ) :
    s.locks t = (s.calls t).countP fun c => c.2.1 ≠ .unlock ∧ c.2.2 = .ok := by
  rw [State.locks, State.calls, List.countP_filter]
  refine List.countP_congr fun c _ => ?_
  simp [and_comm]

theorem unlocks_eq_calls (s : State τ) (t : τ) :
    s.unlocks t = (s.calls t).countP fun c => c.2.1 = .unlock ∧ c.2.2 = .ok := by
  rw [State.unlocks, State.calls, List.countP_filter]
  refine List.countP_congr fun c _ => ?_
  simp [and_comm]

/-! ## One run beside the other -/

variable {x x' : ExState τ}

/-- What a thread does next whose exchange has failed with its load. -/
def ExState.ahead (cfg : Config τ) (x : ExState τ) (t : τ) : Option Next :=
  (x.prev t).bind fun prev =>
    ((x.mutex.pc t).rmw (cfg.tid t)).bind fun op =>
      if op.store prev = none then some (op.next prev) else none

/-- Where `t` is in the run of single steps. -/
def ExState.pcAhead (cfg : Config τ) (x : ExState τ) (t : τ) : Pc :=
  ((x.ahead cfg t).map fun nx => nx.pc (x.mutex.pc t)).getD (x.mutex.pc t)

/-- The return that `t` has already made there. -/
def ExState.retAhead (cfg : Config τ) (x : ExState τ) (t : τ) : List (τ × Op × Ret) :=
  ((x.ahead cfg t).map fun nx => nx.returned t).getD []

/-- The run of single steps has come as far as this one, and a monitor that is still there
means that the word is what the load read. -/
structure ExSim (cfg : Config τ) (x : ExState τ) (s : State τ) : Prop where
  word : s.word = x.mutex.word
  queue : s.queue = x.mutex.queue
  pc : ∀ t, s.pc t = x.pcAhead cfg t
  calls : ∀ t, s.calls t = x.retAhead cfg t ++ x.mutex.calls t
  linked : ∀ t, x.prev t ≠ none →
    (x.mutex.pc t).rmw (cfg.tid t) ≠ none ∧ t ∉ x.mutex.queue
  fresh : ∀ t prev, x.prev t = some prev → x.exclusive t = true → x.mutex.word = prev

theorem ExSim.init (cfg : Config τ) (ty : MutexType) (pshared : Bool) :
    ExSim cfg (exInit ty pshared) (Mutex.init ty pshared) where
  word := rfl
  queue := rfl
  pc _ := rfl
  calls _ := rfl
  linked _ h := absurd rfl h
  fresh _ _ h := by cases h

omit [DecidableEq τ] in
theorem ahead_of_prev (h : x.prev t = none) : x.ahead cfg t = none := by
  rw [ExState.ahead, h]
  rfl

omit [DecidableEq τ] in
theorem ahead_congr (hprev : x'.prev t = x.prev t) (hpc : x'.mutex.pc t = x.mutex.pc t) :
    x'.ahead cfg t = x.ahead cfg t := by
  rw [ExState.ahead, ExState.ahead, hprev, hpc]

omit [DecidableEq τ] in
theorem ahead_of_store {prev : Word} {op : Rmw} (hprev : x.prev t = some prev)
    (hop : (x.mutex.pc t).rmw (cfg.tid t) = some op) :
    x.ahead cfg t = if op.store prev = none then some (op.next prev) else none := by
  rw [ExState.ahead, hprev, hop]
  rfl

omit [DecidableEq τ] in
theorem pcAhead_of_none (h : x.ahead cfg t = none) : x.pcAhead cfg t = x.mutex.pc t := by
  rw [ExState.pcAhead, h]
  rfl

omit [DecidableEq τ] in
theorem retAhead_of_none (h : x.ahead cfg t = none) : x.retAhead cfg t = [] := by
  rw [ExState.retAhead, h]
  rfl

omit [DecidableEq τ] in
theorem pcAhead_congr (hprev : x'.prev t = x.prev t) (hpc : x'.mutex.pc t = x.mutex.pc t) :
    x'.pcAhead cfg t = x.pcAhead cfg t := by
  rw [ExState.pcAhead, ExState.pcAhead, ahead_congr hprev hpc, hpc]

omit [DecidableEq τ] in
theorem retAhead_congr (hprev : x'.prev t = x.prev t) (hpc : x'.mutex.pc t = x.mutex.pc t) :
    x'.retAhead cfg t = x.retAhead cfg t := by
  rw [ExState.retAhead, ExState.retAhead, ahead_congr hprev hpc]

/-- A load or a store of `t`: the rest stays. -/
structure OnlyThread (t : τ) (x x' : ExState τ) (s s' : State τ) : Prop where
  queue : x'.mutex.queue = x.mutex.queue
  queue' : s'.queue = s.queue
  prev : ∀ u, u ≠ t → x'.prev u = x.prev u
  pc : ∀ u, u ≠ t → x'.mutex.pc u = x.mutex.pc u ∧ s'.pc u = s.pc u
  calls : ∀ u, u ≠ t → x'.mutex.calls u = x.mutex.calls u ∧ s'.calls u = s.calls u

theorem ExSim.own (h : ExSim cfg x s) (honly : OnlyThread t x x' s s')
    (hword : s'.word = x'.mutex.word) (hpc : s'.pc t = x'.pcAhead cfg t)
    (hcalls : s'.calls t = x'.retAhead cfg t ++ x'.mutex.calls t)
    (hlinked : x'.prev t ≠ none → (x'.mutex.pc t).rmw (cfg.tid t) ≠ none ∧ t ∉ x'.mutex.queue)
    (hfresh : ∀ u prev, x'.prev u = some prev → x'.exclusive u = true → x'.mutex.word = prev) :
    ExSim cfg x' s' where
  word := hword
  queue := by rw [honly.queue', h.queue, honly.queue]
  pc u := by
    by_cases hu : u = t
    · subst hu
      exact hpc
    · rw [pcAhead_congr (honly.prev u hu) (honly.pc u hu).1, (honly.pc u hu).2]
      exact h.pc u
  calls u := by
    by_cases hu : u = t
    · subst hu
      exact hcalls
    · rw [retAhead_congr (honly.prev u hu) (honly.pc u hu).1, (honly.calls u hu).1,
        (honly.calls u hu).2]
      exact h.calls u
  linked u hin := by
    by_cases hu : u = t
    · subst hu
      exact hlinked hin
    · rw [honly.prev u hu] at hin
      rw [(honly.pc u hu).1, honly.queue]
      exact h.linked u hin
  fresh := hfresh

/-- Both take the step of `t`. -/
theorem OnlyThread.stored (x : ExState τ) (s : State τ) {w : Word} {nx : Next}
    (hnx : nx ≠ .sleep) : OnlyThread t x (x.stored t w nx) s (s.advance t w nx) where
  queue := by rw [stored_mutex, advance_queue, if_neg hnx]
  queue' := by rw [advance_queue, if_neg hnx]
  prev u hu := Function.update_of_ne hu ..
  pc u hu := by simp only [stored_mutex, advance_pc, if_neg hu, and_self]
  calls u hu := by simp only [stored_mutex, advance_calls, if_neg hu, List.nil_append, and_self]

/-- A step of `t` is one event of the other run. -/
theorem step_advance {w : Word} {nx : Next} (hq : t ∉ s.queue)
    (hst : (s.pc t).step (cfg.tid t) s.word = some (w, nx)) :
    step cfg s (.step t) = some (s.advance t w nx) := by
  simp only [step, if_neg hq, hst, Option.map_some]

theorem ExSim.pc_of_prev (h : ExSim cfg x s) (hprev : x.prev t = none) :
    s.pc t = x.mutex.pc t := by
  rw [h.pc, pcAhead_of_none (ahead_of_prev hprev)]

theorem ExSim.calls_of_prev (h : ExSim cfg x s) (hprev : x.prev t = none) :
    s.calls t = x.mutex.calls t := by
  rw [h.calls, retAhead_of_none (ahead_of_prev hprev)]
  rfl

/-- A load: if the exchange fails with it, the single step is taken now. -/
theorem ExSim.ldrex (h : ExSim cfg x s) (hs : exStep cfg x (.ldrex t) = some x') :
    ExSim cfg x' s ∨ ∃ s', step cfg s (.step t) = some s' ∧ ExSim cfg x' s' := by
  simp only [exStep] at hs
  split at hs
  · next hg =>
      obtain rfl := Option.some.inj hs
      obtain ⟨hq, hprev, hop⟩ := hg
      obtain ⟨op, hop⟩ := Option.isSome_iff_exists.mp hop
      have hpc := h.pc_of_prev hprev
      have hcalls := h.calls_of_prev hprev
      have hnow : (x.loaded t).prev t = some x.mutex.word := Function.update_self ..
      have hfresh : ∀ u prev, (x.loaded t).prev u = some prev →
          (x.loaded t).exclusive u = true → x.mutex.word = prev := by
        intro u prev hu hex
        simp only [ExState.loaded] at hu hex
        by_cases hut : u = t
        · subst hut
          rw [Function.update_self] at hu
          exact Option.some.inj hu
        · rw [Function.update_of_ne hut] at hu hex
          exact h.fresh u prev hu hex
      have hlinked : (x.mutex.pc t).rmw (cfg.tid t) ≠ none ∧ t ∉ x.mutex.queue :=
        ⟨by rw [hop]; exact Option.some_ne_none op, hq⟩
      cases hstore : op.store x.mutex.word with
      | some w =>
          have hahead : (x.loaded t).ahead cfg t = none := (ahead_of_store hnow hop).trans (by
            rw [hstore, if_neg (Option.some_ne_none w)])
          refine .inl (h.own (t := t) ⟨rfl, rfl, fun u hu => Function.update_of_ne hu ..,
            fun _ _ => ⟨rfl, rfl⟩, fun _ _ => ⟨rfl, rfl⟩⟩ h.word ?_ ?_ (fun _ => hlinked) hfresh)
          · rw [pcAhead_of_none hahead, hpc]
            rfl
          · rw [retAhead_of_none hahead, hcalls]
            rfl
      | none =>
          have hahead : (x.loaded t).ahead cfg t = some (op.next x.mutex.word) :=
            (ahead_of_store hnow hop).trans (by rw [hstore, if_pos rfl])
          have hst : (s.pc t).step (cfg.tid t) s.word =
              some (s.word, op.next x.mutex.word) := by
            rw [hpc, h.word, Pc.step_of_rmw hop, hstore]
            rfl
          have hnx := Pc.next_ne_sleep hop x.mutex.word
          refine .inr ⟨_, step_advance (by rw [h.queue]; exact hq) hst, ?_⟩
          refine h.own (t := t) ⟨rfl, by rw [advance_queue, if_neg hnx],
            fun u hu => Function.update_of_ne hu .., fun u hu => ⟨rfl, ?_⟩,
            fun u hu => ⟨rfl, ?_⟩⟩ ?_ ?_ ?_ (fun _ => hlinked) hfresh
          · rw [advance_pc, if_neg hu]
          · rw [advance_calls, if_neg hu]
            rfl
          · rw [advance_word]
            exact h.word
          · rw [advance_pc, if_pos rfl, hpc, ExState.pcAhead, hahead]
            rfl
          · rw [advance_calls, if_pos rfl, hcalls, ExState.retAhead, hahead]
            rfl
  · cases hs

/-- A store: it goes through, and the single step is taken now; or it is not tried, and the
single step has been taken with the load; or the loop starts over. -/
theorem ExSim.strex (h : ExSim cfg x s) {lost : Bool}
    (hs : exStep cfg x (.strex t lost) = some x') :
    ExSim cfg x' s ∨ ∃ s', step cfg s (.step t) = some s' ∧ ExSim cfg x' s' := by
  simp only [exStep, Option.bind_eq_some_iff, Option.map_eq_some_iff] at hs
  obtain ⟨prev, hprev, op, hop, rfl⟩ := hs
  have hnx := Pc.next_ne_sleep hop prev
  have hq : t ∉ x.mutex.queue := (h.linked t (by rw [hprev]; exact Option.some_ne_none prev)).2
  have hgone : Function.update x.prev t none t = none := Function.update_self ..
  have hother : ∀ {u prev}, Function.update x.prev t none u = some prev → u ≠ t ∧
      x.prev u = some prev := by
    intro u prev hu
    have hne : u ≠ t := by
      rintro rfl
      rw [hgone] at hu
      cases hu
    rw [Function.update_of_ne hne] at hu
    exact ⟨hne, hu⟩
  have hback : x.ahead cfg t = if op.store prev = none then some (op.next prev) else none :=
    ahead_of_store hprev hop
  cases hstore : op.store prev with
  | none =>
      rw [hstore, if_pos rfl] at hback
      have hahead : (x.skipped t (op.next prev)).ahead cfg t = none := ahead_of_prev hgone
      refine .inl (h.own (t := t) ⟨by rw [skipped_mutex, advance_queue, if_neg hnx], rfl,
        fun u hu => Function.update_of_ne hu .., fun u hu => ⟨?_, rfl⟩, fun u hu => ⟨?_, rfl⟩⟩
        ?_ ?_ ?_ (fun hno => absurd hgone hno) fun u prev hu hex => ?_)
      · rw [skipped_mutex, advance_pc, if_neg hu]
      · rw [skipped_mutex, advance_calls, if_neg hu]
        rfl
      · rw [skipped_mutex, advance_word, h.word]
      · rw [pcAhead_of_none hahead, h.pc, ExState.pcAhead, hback, skipped_mutex, advance_pc,
          if_pos rfl]
        rfl
      · rw [retAhead_of_none hahead, h.calls, ExState.retAhead, hback, skipped_mutex,
          advance_calls, if_pos rfl]
        rfl
      · rw [skipped_mutex, advance_word]
        exact h.fresh u prev (hother hu).2 hex
  | some w =>
      rw [hstore, if_neg (Option.some_ne_none w)] at hback
      have hpc : s.pc t = x.mutex.pc t := by rw [h.pc, pcAhead_of_none hback]
      have hcalls : s.calls t = x.mutex.calls t := by
        rw [h.calls, retAhead_of_none hback]
        rfl
      dsimp only
      split
      · next hkept =>
          have hword : x.mutex.word = prev := h.fresh t prev hprev hkept.1
          have hst : (s.pc t).step (cfg.tid t) s.word = some (w, op.next prev) := by
            rw [hpc, h.word, hword, Pc.step_of_rmw hop, hstore]
            rfl
          have hahead : (x.stored t w (op.next prev)).ahead cfg t = none := ahead_of_prev hgone
          refine .inr ⟨_, step_advance (by rw [h.queue]; exact hq) hst, ?_⟩
          refine h.own (.stored x s hnx) ?_ ?_ ?_ (fun hno => absurd hgone hno) ?_
          · rw [advance_word, stored_mutex, advance_word]
          · rw [pcAhead_of_none hahead, stored_mutex, advance_pc, advance_pc, if_pos rfl,
              if_pos rfl, hpc]
          · rw [retAhead_of_none hahead, stored_mutex, advance_calls, advance_calls, if_pos rfl,
              hcalls]
            rfl
          · intro u prev _ hex
            cases hex
      · have hahead : (x.again t).ahead cfg t = none := ahead_of_prev hgone
        refine .inl (h.own (t := t) ⟨rfl, rfl, fun u hu => Function.update_of_ne hu ..,
          fun _ _ => ⟨rfl, rfl⟩, fun _ _ => ⟨rfl, rfl⟩⟩ h.word ?_ ?_
          (fun hno => absurd hgone hno) fun u prev hu hex => ?_)
        · rw [pcAhead_of_none hahead, hpc]
          rfl
        · rw [retAhead_of_none hahead, hcalls]
          rfl
        · obtain ⟨hne, hu⟩ := hother hu
          simp only [ExState.again, Function.update_of_ne hne] at hex
          exact h.fresh u prev hu hex

/-! ### The rest -/

theorem ExSim.prev_of_rmw (h : ExSim cfg x s) (hop : (x.mutex.pc t).rmw (cfg.tid t) = none) :
    x.prev t = none := by
  by_contra hin
  exact (h.linked t hin).1 hop

theorem ExSim.prev_of_queue (h : ExSim cfg x s) (hq : t ∈ x.mutex.queue) : x.prev t = none := by
  by_contra hin
  exact (h.linked t hin).2 hq

/-- An event that moves only threads that are not at one of the loops, in both runs alike. -/
theorem ExSim.frame (h : ExSim cfg x s) {m : State τ} {ex : τ → Bool}
    (hword : s'.word = m.word) (hqueue : s'.queue = m.queue)
    (hasleep : ∀ u, u ∈ m.queue → u ∈ x.mutex.queue ∨ x.prev u = none)
    (hpc : ∀ u, m.pc u = x.mutex.pc u ∧ s'.pc u = s.pc u ∨ x.prev u = none ∧ s'.pc u = m.pc u)
    (hcalls : ∀ u, ∃ new, m.calls u = new ++ x.mutex.calls u ∧ s'.calls u = new ++ s.calls u ∧
      (new = [] ∨ x.prev u = none))
    (hex : ∀ u, ex u = true → x.exclusive u = true ∧ m.word = x.mutex.word) :
    ExSim cfg ⟨m, x.prev, ex⟩ s' where
  word := hword
  queue := hqueue
  pc u := by
    rcases hpc u with ⟨hsame, hsame'⟩ | ⟨hprev, hmoved⟩
    · have hahead : ExState.pcAhead cfg ⟨m, x.prev, ex⟩ u = x.pcAhead cfg u :=
        pcAhead_congr rfl hsame
      rw [hsame', h.pc u, hahead]
    · rw [hmoved]
      exact (pcAhead_of_none (x := ⟨m, x.prev, ex⟩) (ahead_of_prev hprev)).symm
  calls u := by
    obtain ⟨new, hnew, hnew', hnone⟩ := hcalls u
    have hret : ExState.retAhead cfg ⟨m, x.prev, ex⟩ u = x.retAhead cfg u := by
      rcases hpc u with ⟨hsame, -⟩ | ⟨hprev, -⟩
      · exact retAhead_congr rfl hsame
      · rw [retAhead_of_none (x := ⟨m, x.prev, ex⟩) (ahead_of_prev hprev),
          retAhead_of_none (ahead_of_prev hprev)]
    rw [hnew', h.calls u, hret, hnew]
    rcases hnone with rfl | hprev
    · rfl
    · rw [retAhead_of_none (ahead_of_prev hprev)]
      rfl
  linked u hin := by
    obtain ⟨hop, hq⟩ := h.linked u hin
    refine ⟨?_, fun hno => ?_⟩
    · rcases hpc u with ⟨hsame, -⟩ | ⟨hprev, -⟩
      · exact hsame ▸ hop
      · exact absurd hprev hin
    · rcases hasleep u hno with hold | hprev
      · exact hq hold
      · exact hin hprev
  fresh u prev hprev hkept := by
    obtain ⟨hold, hsame⟩ := hex u hkept
    exact hsame.trans (h.fresh u prev hprev hold)

/-- The same with one thread that moves. -/
theorem ExSim.move (h : ExSim cfg x s) {m : State τ} {ex : τ → Bool} {pc : Pc}
    {new : List (τ × Op × Ret)} (hprev : x.prev t = none)
    (hword : s'.word = m.word) (hqueue : s'.queue = m.queue)
    (hasleep : ∀ u ∈ m.queue, u ∈ x.mutex.queue ∨ u = t)
    (hm : ∀ u, m.pc u = if u = t then pc else x.mutex.pc u)
    (hpc : ∀ u, s'.pc u = if u = t then pc else s.pc u)
    (hmcalls : ∀ u, m.calls u = (if u = t then new else []) ++ x.mutex.calls u)
    (hcalls : ∀ u, s'.calls u = (if u = t then new else []) ++ s.calls u)
    (hex : ∀ u, ex u = true → x.exclusive u = true ∧ m.word = x.mutex.word) :
    ExSim cfg ⟨m, x.prev, ex⟩ s' := by
  refine h.frame hword hqueue (fun u hu => ?_) (fun u => ?_) (fun u => ?_) hex
  · refine (hasleep u hu).imp_right fun heq => ?_
    rw [heq]
    exact hprev
  · by_cases hu : u = t
    · subst hu
      exact .inr ⟨hprev, by rw [hm, hpc, if_pos rfl, if_pos rfl]⟩
    · exact .inl ⟨by rw [hm, if_neg hu], by rw [hpc, if_neg hu]⟩
  · refine ⟨_, hmcalls u, hcalls u, ?_⟩
    by_cases hu : u = t
    · exact .inr (hu ▸ hprev)
    · exact .inl (if_neg hu)

/-- A sleeper goes on. -/
theorem ExSim.resume (h : ExSim cfg x s) {ex : τ → Bool} (hq : u ∈ x.mutex.queue) (pc : Pc)
    (hex : ∀ t, ex t = true → x.exclusive t = true) :
    ExSim cfg ⟨x.mutex.resume u pc, x.prev, ex⟩ (s.resume u pc) := by
  refine h.move (h.prev_of_queue hq) h.word ?_ (fun v hv => ?_) (resume_pc x.mutex u · pc)
    (resume_pc s u · pc) (calls_of_quiet rfl u) (calls_of_quiet rfl u)
    fun t ht => ⟨hex t ht, rfl⟩
  · simp only [State.resume, h.queue]
  · exact .inl (List.mem_of_mem_erase hv)

/-- A thread returns that is not at one of the loops. -/
theorem ExSim.ret (h : ExSim cfg x s) {ex : τ → Bool} (hprev : x.prev t = none) (op : Op) (r : Ret)
    (hex : ∀ t, ex t = true → x.exclusive t = true) :
    ExSim cfg ⟨x.mutex.ret t op r, x.prev, ex⟩ (s.ret t op r) :=
  h.move hprev h.word h.queue (fun _ hv => .inl hv) (ret_pc x.mutex t · op r) (ret_pc s t · op r)
    (calls_of_log_cons rfl) (calls_of_log_cons rfl) fun t ht => ⟨hex t ht, rfl⟩

/-- A time-out depends on its thread and on the queue. -/
theorem step_timeout {m : State τ} (hpc : s'.pc u = s.pc u) (hq : s'.queue = s.queue)
    (hs : step cfg s (.timeout u) = some m) :
    u ∈ s.queue ∧ ∃ pc, m = s.resume u pc ∧ step cfg s' (.timeout u) = some (s'.resume u pc) ∨
      m = (s.resume u pc).ret u .lockTimeoutNp .ebusy ∧
        step cfg s' (.timeout u) = some ((s'.resume u pc).ret u .lockTimeoutNp .ebusy) := by
  simp only [step, hpc, hq] at hs ⊢
  split at hs
  · next pc haw =>
      split at hs
      · next hg =>
          refine ⟨hg.1, pc, ?_⟩
          rw [if_pos hg]
          split at hs
          · next hwait =>
              obtain rfl := Option.some.inj hs
              exact .inl ⟨rfl, rfl⟩
          · next hwait =>
              split at hs
              · next hcfg =>
                  obtain rfl := Option.some.inj hs
                  exact .inr ⟨rfl, if_pos hcfg⟩
              · next hcfg =>
                  obtain rfl := Option.some.inj hs
                  exact .inl ⟨rfl, if_neg hcfg⟩
      · cases hs
  · cases hs

theorem ExSim.timeout (h : ExSim cfg x s) {m : State τ} {ex : τ → Bool}
    (hex : ∀ t, ex t = true → x.exclusive t = true)
    (hs : step cfg x.mutex (.timeout u) = some m) :
    ∃ s', step cfg s (.timeout u) = some s' ∧ ExSim cfg ⟨m, x.prev, ex⟩ s' := by
  have hq : u ∈ x.mutex.queue := (step_timeout rfl rfl hs).1
  have hpc := h.pc_of_prev (h.prev_of_queue hq)
  obtain ⟨-, pc, ⟨rfl, hs'⟩ | ⟨rfl, hs'⟩⟩ := step_timeout hpc h.queue hs
  · exact ⟨_, hs', h.resume hq pc hex⟩
  · exact ⟨_, hs', (h.resume hq pc hex).ret (h.prev_of_queue hq) _ _ fun _ ht => ht⟩

/-- Every other event is the same event in the run of single steps. -/
theorem ExSim.plain (h : ExSim cfg x s) {e : Event τ} {m : State τ}
    (hplain : e.isPlain cfg x.mutex = true) (hs : step cfg x.mutex e = some m) :
    ∃ s', step cfg s e = some s' ∧
      ExSim cfg ⟨m, x.prev, fun t => x.exclusive t && !e.isStore x.mutex⟩ s' := by
  have hex : ∀ t, (x.exclusive t && !e.isStore x.mutex) = true → x.exclusive t = true :=
    fun t ht => (Bool.and_eq_true_iff.mp ht).1
  cases step_fires hs with
  | @call t op hidle =>
      have hprev := h.prev_of_rmw (t := t) (by rw [hidle]; rfl)
      refine ⟨s.setPc t (.enter op), ?_, ?_⟩
      · simp only [step, h.pc_of_prev hprev, if_pos hidle]
      · exact h.move hprev h.word h.queue (fun _ hv => .inl hv) (setPc_pc x.mutex t · _)
          (setPc_pc s t · _) (calls_of_quiet rfl t) (calls_of_quiet rfl t)
          fun t ht => ⟨hex t ht, rfl⟩
  | @step t w nx hq hst =>
      have hop : (x.mutex.pc t).rmw (cfg.tid t) = none := Option.isNone_iff_eq_none.mp hplain
      have hprev := h.prev_of_rmw hop
      have hpc := h.pc_of_prev hprev
      have hst' : (s.pc t).step (cfg.tid t) s.word = some (w, nx) := by
        rw [hpc, h.word]
        exact hst
      refine ⟨_, step_advance (by rw [h.queue]; exact hq) hst', ?_⟩
      refine h.move hprev ?_ ?_ (fun v hv => ?_) (advance_pc x.mutex t · w nx) (fun v => ?_)
        (advance_calls x.mutex t w nx) (advance_calls s t w nx) fun v hv => ⟨hex v hv, ?_⟩
      · rw [advance_word, advance_word]
      · rw [advance_queue, advance_queue, h.queue]
      · rw [advance_queue] at hv
        split at hv
        · exact (List.mem_cons.mp hv).symm
        · exact .inl hv
      · rw [advance_pc, hpc]
      · rw [advance_word]
        refine (Pc.step_plain hop hst).resolve_right fun hstores => ?_
        simp [Event.isStore, hstores] at hv
  | @expire t hq hclock =>
      have hprev := h.prev_of_rmw (Pc.rmw_of_isClock hclock)
      refine ⟨s.ret t .lockTimeoutNp .ebusy, ?_, h.ret hprev _ _ hex⟩
      simp only [step, h.pc_of_prev hprev, h.queue, if_pos (And.intro hq hclock)]
  | @wakeNone t sh hsh hno =>
      have hprev := h.prev_of_rmw (Pc.rmw_of_wakesShared hsh)
      have hno' : ¬ ∃ u ∈ s.queue, (s.pc u).waitsShared = sh := by
        rintro ⟨u, hu, hkey⟩
        rw [h.queue] at hu
        rw [h.pc_of_prev (h.prev_of_queue hu)] at hkey
        exact hno u hu hkey
      refine ⟨s.ret t .unlock .ok, ?_, h.ret hprev _ _ hex⟩
      simp only [step, h.pc_of_prev hprev, hsh, if_neg hno']
  | @wakeSome t u sh pc hsh haw hq hkey =>
      have hprev := h.prev_of_rmw (Pc.rmw_of_wakesShared hsh)
      have hpcu := h.pc_of_prev (h.prev_of_queue hq)
      refine ⟨(s.resume u pc).ret t .unlock .ok, ?_,
        (h.resume hq pc hex).ret hprev _ _ fun _ ht => ht⟩
      simp only [step, h.pc_of_prev hprev, hpcu, hsh, haw, h.queue,
        if_pos (And.intro hq hkey)]
  | @timeout u _ _ _ | @timeoutBusy u _ _ _ _ _ _ => exact h.timeout hex hs
  | @interrupt u pc haw hq =>
      have hpcu := h.pc_of_prev (h.prev_of_queue hq)
      refine ⟨s.resume u pc, ?_, h.resume hq pc hex⟩
      simp only [step, hpcu, haw, h.queue, if_pos hq]

/-! ## Whole runs -/

/-- A promise about the calls, made here. -/
def exOk (ok : State τ → Event τ → Prop) (x : ExState τ) : ExEvent τ → Prop
  | .mutex e => ok x.mutex e
  | .ldrex _ | .strex _ _ => True

theorem Pc.owes_of_rmw {pc : Pc} {tid : Word} {op : Rmw} (h : pc.rmw tid = some op) :
    pc.owes = 0 := by
  cases pc <;> first | rfl | cases h

/-- A failed exchange leads on in the function, or it is the `EBUSY` of `trylock`. -/
theorem Pc.next_of_skip {pc : Pc} {tid prev : Word} {op : Rmw} (h : pc.rmw tid = some op)
    (hstore : op.store prev = none) :
    (∃ pc', op.next prev = .goto pc' ∧ pc'.owes = 0) ∨ op.next prev = .ret .trylock .ebusy := by
  cases pc <;> simp only [Pc.rmw, reduceCtorEq, Option.some.injEq] at h <;> subst h <;>
    simp only [Rmw.store, ite_eq_right_iff, reduceCtorEq, imp_false] at hstore <;>
    simp only [Rmw.next, if_neg hstore]
  case acquire op _ | flip op _ _ => by_cases hop : op = .lockTimeoutNp <;> simp [hop, Pc.owes]
  all_goals first | exact .inr trivial | exact .inl ⟨_, rfl, rfl⟩

omit [DecidableEq τ] in
theorem ahead_cases {nx : Next} (h : x.ahead cfg t = some nx) :
    (x.mutex.pc t).owes = 0 ∧
      ((∃ pc', nx = .goto pc' ∧ pc'.owes = 0) ∨ nx = .ret .trylock .ebusy) := by
  simp only [ExState.ahead, Option.bind_eq_some_iff, Option.ite_none_right_eq_some,
    Option.some.injEq] at h
  obtain ⟨prev, -, op, hop, hstore, rfl⟩ := h
  exact ⟨Pc.owes_of_rmw hop, Pc.next_of_skip hop hstore⟩

/-- Who holds the mutex is the same: a failed exchange gains nothing. -/
theorem ExSim.holds_iff (h : ExSim cfg x s) (t : τ) : Holds s t ↔ Holds x.mutex t := by
  have howes : (s.pc t).owes = (x.mutex.pc t).owes := by
    rw [h.pc, ExState.pcAhead]
    cases hahead : x.ahead cfg t with
    | none => rfl
    | some nx =>
        obtain ⟨hzero, ⟨pc', rfl, hpc'⟩ | rfl⟩ := ahead_cases hahead
        · rw [hzero]
          exact hpc'
        · rw [hzero]
          rfl
  have hcount : ∀ p : τ × Op × Ret → Bool, (∀ c, p c = true → c.2.2 = .ok) →
      (s.calls t).countP p = (x.mutex.calls t).countP p := by
    intro p hp
    have hzero : (x.retAhead cfg t).countP p = 0 := by
      refine List.countP_eq_zero.mpr fun c hc hpc => ?_
      have hok := hp c hpc
      rw [ExState.retAhead] at hc
      cases hahead : x.ahead cfg t with
      | none =>
          rw [hahead] at hc
          cases hc
      | some nx =>
          rw [hahead] at hc
          obtain ⟨-, ⟨pc', rfl, -⟩ | rfl⟩ := ahead_cases hahead
          · cases hc
          · obtain rfl := List.mem_singleton.mp hc
            cases hok
    rw [h.calls, List.countP_append, hzero, Nat.zero_add]
  rw [Holds, Holds, howes, locks_eq_calls, locks_eq_calls, unlocks_eq_calls, unlocks_eq_calls,
    hcount _ (by simp), hcount _ (by simp)]

theorem ExSim.promise (h : ExSim cfg x s) {e : Event τ} (hok : HolderUnlocks x.mutex e) :
    HolderUnlocks s e := by
  cases e with
  | call t op =>
      cases op with
      | unlock => exact (h.holds_iff t).mpr hok
      | _ => trivial
  | _ => trivial

/-- Under any promise that is kept there as it is here and says nothing of the steps. -/
theorem ExSim.step {ok : State τ → Event τ → Prop} (h : ExSim cfg x s) {e : ExEvent τ}
    (hsteps : ∀ t, ok s (.step t)) (hcarry : ∀ e, ok x.mutex e → ok s e)
    (hok : exOk ok x e) (hs : exStep cfg x e = some x') :
    ∃ es s', Run (Mutex.step cfg) ok s es s' ∧ ExSim cfg x' s' := by
  have hone : ∀ {e : Event τ} {s'}, Mutex.step cfg s e = some s' → ok s e →
      Run (Mutex.step cfg) ok s [e] s' := fun hs hok => .snoc .nil hok hs
  cases e with
  | ldrex t =>
      rcases h.ldrex hs with hsim | ⟨s', hs', hsim⟩
      · exact ⟨[], s, .nil, hsim⟩
      · exact ⟨_, s', hone hs' (hsteps t), hsim⟩
  | strex t lost =>
      rcases h.strex hs with hsim | ⟨s', hs', hsim⟩
      · exact ⟨[], s, .nil, hsim⟩
      · exact ⟨_, s', hone hs' (hsteps t), hsim⟩
  | mutex e =>
      simp only [exStep] at hs
      split at hs
      · next hplain =>
          obtain ⟨m, hm, rfl⟩ := Option.map_eq_some_iff.mp hs
          obtain ⟨s', hs', hsim⟩ := h.plain hplain hm
          exact ⟨_, s', hone hs' (hcarry e hok), hsim⟩
      · cases hs

/-! ### And back -/

theorem exStep_ldrex {op : Rmw} (hprev : x.prev t = none) (hq : t ∉ x.mutex.queue)
    (hop : (x.mutex.pc t).rmw (cfg.tid t) = some op) :
    exStep cfg x (.ldrex t) = some (x.loaded t) := by
  simp only [exStep, hop, Option.isSome_some, hprev, hq, not_false_eq_true, and_self, if_true]

/-- With nobody in between load and store are the single step. -/
theorem exStep_strex {op : Rmw} {w : Word} {nx : Next} (hprev : ∀ u, x.prev u = none)
    (hop : (x.mutex.pc t).rmw (cfg.tid t) = some op)
    (hst : (x.mutex.pc t).step (cfg.tid t) x.mutex.word = some (w, nx)) :
    ∃ x', exStep cfg (x.loaded t) (.strex t false) = some x' ∧
      x'.mutex = x.mutex.advance t w nx ∧ ∀ u, x'.prev u = none := by
  rw [Pc.step_of_rmw hop, Option.some.injEq, Prod.mk.injEq] at hst
  obtain ⟨rfl, rfl⟩ := hst
  have hgone : ∀ u, Function.update (x.loaded t).prev t none u = none := by
    intro u
    by_cases hu : u = t
    · rw [hu, Function.update_self]
    · rw [Function.update_of_ne hu]
      exact (Function.update_of_ne hu ..).trans (hprev u)
  have hnow : (x.loaded t).prev t = some x.mutex.word := Function.update_self ..
  have hkept : (x.loaded t).exclusive t = true := Function.update_self ..
  have hmutex : (x.loaded t).mutex = x.mutex := rfl
  simp only [exStep, hnow, Option.bind_some, hmutex, hop, Option.map_some, hkept,
    Bool.false_eq_true, not_false_eq_true, and_self, if_true]
  cases hstore : op.store x.mutex.word with
  | none => exact ⟨_, rfl, rfl, hgone⟩
  | some w => exact ⟨_, rfl, rfl, hgone⟩

theorem exRun_step {ok : State τ → Event τ → Prop} {e : Event τ} (hprev : ∀ u, x.prev u = none)
    (hok : ok x.mutex e) (hs : Mutex.step cfg x.mutex e = some s') :
    ∃ es x', Run (exStep cfg) (exOk ok) x es x' ∧ x'.mutex = s' ∧ ∀ u, x'.prev u = none := by
  by_cases hplain : e.isPlain cfg x.mutex = true
  · have hone : exStep cfg x (.mutex e) = some
        { x with mutex := s', exclusive := fun t => x.exclusive t && !e.isStore x.mutex } := by
      simp only [exStep, hplain, if_true, hs, Option.map_some]
    exact ⟨_, _, .snoc (e := ExEvent.mutex e) .nil hok hone, rfl, hprev⟩
  · cases e with
    | step t =>
        obtain ⟨op, hop⟩ : ∃ op, (x.mutex.pc t).rmw (cfg.tid t) = some op :=
          Option.ne_none_iff_exists'.mp fun hno => hplain (Option.isNone_iff_eq_none.mpr hno)
        cases step_fires hs with
        | @step _ w nx hq hst =>
            obtain ⟨x', hstore, hmutex, hgone⟩ := exStep_strex hprev hop hst
            have hload : Run (exStep cfg) (exOk ok) x [.ldrex t] (x.loaded t) :=
              .snoc (e := ExEvent.ldrex t) .nil trivial (exStep_ldrex (hprev t) hq hop)
            exact ⟨_, x', .snoc (e := ExEvent.strex t false) hload trivial hstore, hmutex, hgone⟩
    | _ => exact absurd rfl hplain

/-- What a run with `ldrex` and `strex` that is at `x` has in common with the run of single
steps that is at `s`: the word, the sleepers, and for every thread its place and the calls it
has returned from, but for a failed exchange that has not come to its end yet. -/
structure SeenAs (cfg : Config τ) (x : ExState τ) (s : State τ) : Prop where
  word : s.word = x.mutex.word
  queue : s.queue = x.mutex.queue
  pc : ∀ t, s.pc t = x.pcAhead cfg t
  calls : ∀ t, s.calls t = x.retAhead cfg t ++ x.mutex.calls t
  holds : ∀ t, Holds s t ↔ Holds x.mutex t

theorem ExSim.seenAs (h : ExSim cfg x s) : SeenAs cfg x s :=
  ⟨h.word, h.queue, h.pc, h.calls, h.holds_iff⟩

/-- Every run with `ldrex` and `strex` is, load by load and store by store, a run of single
steps, and every run of single steps is a run with `ldrex` and `strex`. If only holders call
`unlock` here, then so it is there; and so a normal mutex excludes down to here. -/
theorem exclusive_refines (cfg : Config τ) (ty : MutexType) (pshared : Bool) :
    (∀ es x, Run (exStep cfg) (exOk always) (exInit ty pshared) es x →
      ∃ es' s, Run (Mutex.step cfg) always (Mutex.init ty pshared) es' s ∧ SeenAs cfg x s) ∧
    (∀ es x, Run (exStep cfg) (exOk HolderUnlocks) (exInit ty pshared) es x →
      (∃ es' s, Run (Mutex.step cfg) HolderUnlocks (Mutex.init ty pshared) es' s ∧
        SeenAs cfg x s) ∧
      (ty = .normal → ∀ t u, Holds x.mutex t → Holds x.mutex u → t = u)) ∧
    ∀ ok es s, Run (Mutex.step cfg) ok (Mutex.init ty pshared) es s →
      ∃ es' x, Run (exStep cfg) (exOk ok) (exInit ty pshared) es' x ∧ x.mutex = s ∧
        ∀ t, x.prev t = none := by
  refine ⟨fun es x hrun => ?_, fun es x hrun => ?_, fun ok es s hrun => ?_⟩
  · obtain ⟨es', s, hrun', hsim⟩ : ∃ es' s, Run (Mutex.step cfg) always
        (Mutex.init ty pshared) es' s ∧ ExSim cfg x s :=
      Run.simulate (ExSim.init cfg ty pshared)
        (fun _ _ _ _ h hok hs => h.step (fun _ => trivial) (fun _ _ => trivial) hok hs) hrun
    exact ⟨es', s, hrun', hsim.seenAs⟩
  · obtain ⟨es', s, hrun', hsim⟩ : ∃ es' s, Run (Mutex.step cfg) HolderUnlocks
        (Mutex.init ty pshared) es' s ∧ ExSim cfg x s :=
      Run.simulate (ExSim.init cfg ty pshared)
        (fun _ _ _ _ h hok hs => h.step (fun _ => trivial) (fun _ => h.promise) hok hs) hrun
    refine ⟨⟨es', s, hrun', hsim.seenAs⟩, ?_⟩
    rintro rfl t u ht hu
    obtain ⟨st, h, hinv⟩ := normInv_reachable hrun'
    rw [← hsim.holds_iff, hinv.holds_iff] at ht hu
    exact Option.some.inj (ht.symm.trans hu)
  · refine Run.simulate (R := fun s (x : ExState τ) => x.mutex = s ∧ ∀ t, x.prev t = none)
      ⟨rfl, fun _ => rfl⟩ ?_ hrun
    rintro _ e s' x ⟨rfl, hprev⟩ hok hs
    exact exRun_step hprev hok hs

/-- Thread `a` loses its monitor once and then has the mutex; thread `b` finds that with
its load. -/
def lostThenTaken {T : Type} (a b : T) : List (ExEvent T) :=
  [.mutex (.call a .lock), .mutex (.step a), .ldrex a, .strex a true, .ldrex a, .strex a false,
    .mutex (.call b .trylock), .mutex (.step b), .ldrex b]

/-- The single step of the second thread has been taken by then, and its call has returned
there; here it still has to come to its end. -/
theorem exclusive_refines_lost :
    ∃ x, Run (exStep twoThreads) (exOk HolderUnlocks) (exInit .normal false)
        (lostThenTaken 0 1) x ∧
      x.mutex.log = [(0, .lock, .ok)] ∧
      ∃ es' s, Run (Mutex.step twoThreads) HolderUnlocks (Mutex.init .normal false) es' s ∧
        s.word = 0x00000001#32 ∧ s.pc 1 = .idle ∧ s.calls 1 = [(1, .trylock, .ebusy)] ∧
        Holds s 0 := by
  have hsome : (runEvents (exStep twoThreads) (exInit .normal false)
      (lostThenTaken 0 1)).isSome := by decide
  have hword : (Option.get _ hsome).mutex.word = 0x00000001#32 := by decide +revert
  have hpc : (Option.get _ hsome).pcAhead twoThreads 1 = .idle := by decide +revert
  have hcalls : (Option.get _ hsome).retAhead twoThreads 1 ++ (Option.get _ hsome).mutex.calls 1 =
      [(1, .trylock, .ebusy)] := by decide +revert
  have hholds : Holds (Option.get _ hsome).mutex 0 := by
    refine ⟨?_, ?_⟩ <;> decide +revert
  have hrun : Run (exStep twoThreads) (exOk HolderUnlocks) (exInit .normal false)
      (lostThenTaken 0 1) _ :=
    Run.of_runEvents (by simp [lostThenTaken, exOk, HolderUnlocks]) (Option.some_get hsome).symm
  obtain ⟨⟨es', s, hrun', hseen⟩, -⟩ :=
    (exclusive_refines twoThreads .normal false).2.1 _ _ hrun
  exact ⟨_, hrun, rfl, es', s, hrun', hseen.word.trans hword, (hseen.pc 1).trans hpc,
    (hseen.calls 1).trans hcalls, (hseen.holds 0).mpr hholds⟩

end Pisces.Mutex
