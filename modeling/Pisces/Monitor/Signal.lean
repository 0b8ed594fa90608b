import Pisces.Monitor.Wait
import Mathlib.Data.List.Perm.Subperm

/-!
# Signals that are sent with the mutex held

The comment in `__pthread_cond_pulse` leaves it to the caller to hold the mutex
when it signals. If every caller does, and every caller of a wait does too, the
word that a wait reads is the word at its call: a pulse moves the word only in
the hands of the holder, and the waiter is the holder until its `unlock`. So
from the call on, a signal is missed only by the wrap of the counter, which is
what the comment above `pthread_cond_init` admits.

`SigInv` says what each thread in a wait has read, as a number of pulses.
-/

namespace Pisces.Monitor

open Pisces.Lib

/-- In `__pthread_cond_pulse`. -/
def pulsing : Cond.Pc → Bool
  | .flags _ | .load _ _ | .cas _ _ _ | .wake _ => true
  | _ => false

/-- What a thread in a wait has read, if it called after `since` pulses and
`pulses` have completed by now. -/
def SawAt (w : Cond.Word) (pulses since : Nat) : Cond.Pc → Prop
  | .read _ => since = pulses
  | .unlockMutex _ old | .wait _ old => since ≤ pulses ∧ old = Cond.moved w since
  | _ => True

section Cond

variable {τ : Type} [DecidableEq τ] {c c' : Cond.State τ} {e : Cond.Event τ} {t : τ}
  {w : Cond.Word} {since : τ → Nat}

/-- Every thread in a wait has read the word that was there when it called. -/
def Saw (w : Cond.Word) (since : τ → Nat) (c : Cond.State τ) : Prop :=
  ∀ t, SawAt w c.pulses (since t) (c.pc t)

theorem condIsShared_moved (w : Cond.Word) (k : Nat) :
    Cond.condIsShared (Cond.moved w k) = Cond.condIsShared w := by
  rw [Cond.condIsShared, Cond.condIsShared, Cond.moved_shared]

/-- One more pulse is nothing to a thread that is not about to read. -/
theorem SawAt.succ {pulses k : Nat} {pc : Cond.Pc} (h : SawAt w pulses k pc)
    (hread : ∀ timed, pc ≠ .read timed) : SawAt w (pulses + 1) k pc := by
  cases pc with
  | read timed => exact absurd rfl (hread timed)
  | unlockMutex _ _ | wait _ _ => exact ⟨Nat.le_succ_of_le h.1, h.2⟩
  | _ => trivial

/-- One thread moves, the pulses stay. -/
theorem Saw.set (h : Saw w since c) {pc : Cond.Pc} (hp : c'.pulses = c.pulses)
    (hpc : ∀ u, c'.pc u = Function.update c.pc t pc u) (hnew : SawAt w c.pulses (since t) pc) :
    Saw w since c' := by
  intro u
  rw [hp, hpc, Function.update_apply]
  split
  · next hu => rw [hu]; exact hnew
  · exact h u

theorem Saw.resume (h : Saw w since c) (us : List τ) (b : Bool) :
    Saw w since (c.resume us b) := by
  intro u
  show SawAt w c.pulses (since u) (if u ∈ us then .lockMutex b else c.pc u)
  split
  · trivial
  · exact h u

/-- Any step but the call of a wait, if nobody is about to read when a pulse
completes. -/
theorem Saw.step (h : Saw w since c) (hw : c.word = Cond.moved w c.pulses)
    (hread : ∀ t, pulsing (c.pc t) = true → ∀ u timed, c.pc u ≠ .read timed)
    (hstart : ∀ t timed, e ≠ .startWait t timed) (hs : Cond.step c e = some c') :
    Saw w since c' := by
  cases Cond.step_fires hs with
  | startWait _ => exact absurd rfl (hstart _ _)
  | pulse _ => exact h.set rfl (fun _ => rfl) trivial
  | @own t pc _ hown =>
      refine h.set rfl (fun _ => rfl) ?_
      have ht := h t
      generalize c.pc t = old at hown ht
      cases hown with
      | read =>
          have ht : since t = c.pulses := ht
          exact ⟨Nat.le_of_eq ht, by rw [hw, ht]⟩
      | unlocked => exact ht
      | flags | load | retry | changed _ | locked => trivial
  | @swap t p fl _ hpc =>
      intro u
      show SawAt w (c.pulses + 1) (since u) (Function.update c.pc t (.wake p) u)
      rw [Function.update_apply]
      split
      · trivial
      · exact (h u).succ (hread t (by rw [hpc]; rfl) u)
  | sleep _ _ => exact h
  | interrupt _ | timeout _ _ => exact h.resume _ _
  | wake _ _ _ _ => exact (h.resume _ false).set rfl (fun _ => rfl) trivial

/-- A thread is in a pulse only after it has called one. -/
theorem pulsing_step (hs : Cond.step c e = some c') (hp : pulsing (c'.pc t) = true) :
    pulsing (c.pc t) = true ∨ ∃ p, e = .pulse t p := by
  have hset : ∀ {c₀ : Cond.State τ} {u : τ} {pc : Cond.Pc},
      pulsing ((c₀.setPc u pc).pc t) = true →
      (t = u ∧ pulsing pc = true) ∨ pulsing (c₀.pc t) = true := by
    intro c₀ u pc hp
    simp only [Cond.State.setPc, Function.update_apply] at hp
    split at hp
    · next hu => exact .inl ⟨hu, hp⟩
    · exact .inr hp
  have hresume : ∀ {us : List τ} {b : Bool}, pulsing ((c.resume us b).pc t) = true →
      pulsing (c.pc t) = true := by
    intro us b hp
    simp only [Cond.State.resume] at hp
    split at hp
    · cases hp
    · exact hp
  cases Cond.step_fires hs with
  | pulse _ =>
      rcases hset hp with ⟨rfl, -⟩ | hp
      · exact .inr ⟨_, rfl⟩
      · exact .inl hp
  | startWait _ =>
      rcases hset hp with ⟨-, hno⟩ | hp
      · cases hno
      · exact .inl hp
  | own _ hown =>
      rcases hset hp with ⟨rfl, hnew⟩ | hp
      · refine .inl ?_
        generalize c.pc t = old at hown
        cases hown with
        | flags | load | retry => rfl
        | read | unlocked | changed _ | locked => cases hnew
      · exact .inl hp
  | swap _ hpc =>
      rcases hset hp with ⟨rfl, -⟩ | hp
      · exact .inl (by rw [hpc]; rfl)
      · exact .inl hp
  | sleep _ _ => exact .inl hp
  | interrupt _ | timeout _ _ => exact .inl (hresume hp)
  | wake _ _ _ _ =>
      rcases hset hp with ⟨-, hno⟩ | hp
      · cases hno
      · exact .inl (hresume hp)

/-- Who sleeps after a step slept before it, or falls asleep on the word it saw. -/
theorem queue_step (hs : Cond.step c e = some c') {q : τ × Bool} (hq : q ∈ c'.queue) :
    q ∈ c.queue ∨ (e = .step q.1 ∧ q.2 = Cond.condIsShared c.word ∧
      ∃ timed, c.pc q.1 = .wait timed c.word) := by
  cases Cond.step_fires hs with
  | pulse _ | startWait _ | own _ _ | swap _ _ => exact .inl hq
  | sleep _ hpc =>
      rcases List.mem_cons.mp hq with rfl | hq
      · exact .inr ⟨rfl, rfl, _, hpc⟩
      · exact .inl hq
  | interrupt _ | timeout _ _ | wake _ _ _ _ => exact .inl (List.mem_filter.mp hq).1

end Cond

/-! ## Runs -/

section Run

variable {τ : Type} [DecidableEq τ] {cfg : Mutex.Config τ} {ty : Mutex.MutexType}
  {pshared : Bool} {w : Cond.Word} {s s' : State τ} {t : τ}

/-- Only the holder of the mutex signals, waits, or unlocks it. -/
def HolderSignals (s : State τ) : Event τ → Prop
  | .cond (.pulse t _) => Mutex.Holds s.mutex t
  | e => HolderCalls s e

instance (s : State τ) : (e : Event τ) → Decidable (HolderSignals s e)
  | .cond (.pulse t _) => inferInstanceAs (Decidable (Mutex.Holds s.mutex t))
  | .cond (.startWait t timed) =>
      inferInstanceAs (Decidable (HolderCalls s (.cond (.startWait t timed))))
  | .cond (.step t) => inferInstanceAs (Decidable (HolderCalls s (.cond (.step t))))
  | .cond (.wake t us) => inferInstanceAs (Decidable (HolderCalls s (.cond (.wake t us))))
  | .cond (.interrupt t) => inferInstanceAs (Decidable (HolderCalls s (.cond (.interrupt t))))
  | .cond (.timeout t) => inferInstanceAs (Decidable (HolderCalls s (.cond (.timeout t))))
  | .mutex e => inferInstanceAs (Decidable (HolderCalls s (.mutex e)))
  | .enter t => inferInstanceAs (Decidable (HolderCalls s (.enter t)))
  | .leave t => inferInstanceAs (Decidable (HolderCalls s (.leave t)))

theorem holderSignals_promise : Promise (τ := τ) Mutex.HolderUnlocks HolderSignals 1 where
  mutex h := holderCalls_promise.mutex h
  wait {s t timed n} h hn := by
    have h : HolderCalls s (.cond (.startWait t timed)) := h
    exact holderCalls_promise.wait h hn
  call hidle hn hleast hop := holderCalls_promise.call hidle hn hleast hop

/-- The mutex is `t`'s, and `t` is in none of its functions. -/
def Owns (m : Mutex.State τ) (t : τ) : Prop := m.pc t = .idle ∧ m.unlocks t < m.locks t

structure SigInv (w : Cond.Word) (s : State τ) : Prop where
  flags : Cond.FlagsOk s.cond
  word : s.cond.word = Cond.moved w s.cond.pulses
  saw : Saw w s.since s.cond
  pulsers : ∀ t, pulsing (s.cond.pc t) = true → Owns s.mutex t
  keys : ∀ q ∈ s.cond.queue, q.2 = Cond.condIsShared w

theorem SigInv.init : SigInv w (init ty pshared w : State τ) where
  flags _ := trivial
  word := (Cond.moved_zero w).symm
  saw _ := trivial
  pulsers _ hno := nomatch hno
  keys := nofun

/-- Only its own calls take the mutex from a thread. -/
theorem Owns.frame {m m' : Mutex.State τ} {e : Mutex.Event τ} (h : Owns m t)
    (hm : Mutex.step cfg m e = some m') (hnot : ∀ op, e ≠ .call t op) : Owns m' t := by
  obtain ⟨hidle, hlt⟩ := h
  have hother : ∀ {u op}, (m.pc u).op = some op → t ≠ u := by
    rintro u op hop rfl
    rw [hidle] at hop
    cases hop
  have hstill : (m'.pc t).op = (m.pc t).op → m'.pc t = .idle := by
    intro hop
    rw [hidle] at hop
    exact Mutex.Pc.op_eq_none.mp hop
  cases Mutex.step_callStep hm with
  | @call u op he _ hlog hpc =>
      have hu : t ≠ u := by
        rintro rfl
        exact hnot op he
      rw [Owns, Mutex.locks_of_log_eq hlog, Mutex.unlocks_of_log_eq hlog, hpc, if_neg hu]
      exact ⟨hidle, hlt⟩
  | inside _ hlog hop =>
      rw [Owns, Mutex.locks_of_log_eq hlog, Mutex.unlocks_of_log_eq hlog]
      exact ⟨hstill (hop t), hlt⟩
  | ret _ hlog hop _ hothers =>
      have hu := hother hop
      rw [Owns, Mutex.locks_of_log_cons hlog, Mutex.unlocks_of_log_cons hlog, if_neg hu, if_neg hu]
      exact ⟨hstill (hothers t hu), hlt⟩

section Inv

variable {ok : Mutex.State τ → Mutex.Event τ → Prop}

/-- A waiter that has not read the word yet still has the mutex. -/
theorem MonInv.reader_owns (h : MonInv cfg ty pshared ok 1 s) {timed : Bool}
    (hpc : s.cond.pc t = .read timed) : Owns s.mutex t := by
  have hphase : phase (s.cond.pc t) = .reading := by
    rw [hpc]
    rfl
  have hleast := h.least t (by simp [hphase])
  have hl := h.located t
  rw [hphase] at hl
  generalize s.inCall t = b at hl
  cases hl with
  | reading hi hc =>
      rw [Counts] at hc
      exact ⟨hi, by omega⟩

/-- So nobody is about to read while another thread is in a pulse. -/
theorem MonInv.no_reader (h : MonInv cfg ty pshared ok 1 s)
    (hserved : Mutex.Served cfg ty pshared ok) (hsig : SigInv w s)
    (hpulse : pulsing (s.cond.pc t) = true) (u : τ) (timed : Bool) :
    s.cond.pc u ≠ .read timed := by
  intro hread
  obtain ⟨es, hrun⟩ := h.reach
  obtain ⟨htidle, htlt⟩ := hsig.pulsers t hpulse
  obtain ⟨huidle, hult⟩ := h.reader_owns hread
  obtain rfl := hserved.alone hrun htidle huidle htlt hult
  rw [hread] at hpulse
  cases hpulse

/-- Any step of the condition variable but the call of a wait. -/
theorem SigInv.cond (hsig : SigInv w s) (h : MonInv cfg ty pshared ok 1 s)
    (hserved : Mutex.Served cfg ty pshared ok) {e : Cond.Event τ} {c : Cond.State τ}
    (hstart : ∀ t timed, e ≠ .startWait t timed)
    (hpulse : ∀ t p, e = .pulse t p → Owns s.mutex t) (hc : Cond.step s.cond e = some c) :
    SigInv w (s.withCond c) := by
  obtain ⟨hmoves, hflags⟩ := Cond.step_moves hsig.flags hc
  refine ⟨hflags, ?_, ?_, fun t hp => ?_, fun q hq => ?_⟩
  · show c.word = Cond.moved w c.pulses
    rcases hmoves.pulses with ⟨hp, hw⟩ | ⟨hp, hw⟩
    · rw [hp, hw]
      exact hsig.word
    · rw [hp, hw, hsig.word, Cond.moved_succ]
  · exact hsig.saw.step hsig.word (fun t hp => h.no_reader hserved hsig hp) hstart hc
  · rcases pulsing_step hc hp with hp | ⟨p, he⟩
    · exact hsig.pulsers t hp
    · exact hpulse t p he
  · rcases queue_step hc hq with hq | ⟨-, hkey, -⟩
    · exact hsig.keys q hq
    · rw [hkey, hsig.word, condIsShared_moved]

/-- A thread calls a wait. -/
theorem SigInv.startWait (hsig : SigInv w s) {timed : Bool} {c : Cond.State τ}
    (hc : Cond.step s.cond (.startWait t timed) = some c) :
    SigInv w ((s.remember t).withCond c) := by
  obtain ⟨hmoves, hflags⟩ := Cond.step_moves hsig.flags hc
  have hsame : c.pulses = s.cond.pulses ∧ c.word = s.cond.word := by
    cases Cond.step_fires hc with
    | startWait _ => exact ⟨rfl, rfl⟩
  refine ⟨hflags, ?_, fun u => ?_, fun u hp => ?_, fun q hq => ?_⟩
  · show c.word = Cond.moved w c.pulses
    rw [hsame.1, hsame.2]
    exact hsig.word
  · show SawAt w c.pulses (Function.update s.since t s.cond.pulses u) (c.pc u)
    rw [Function.update_apply, startWait_pc hc, hsame.1]
    split
    · rfl
    · exact hsig.saw u
  · rcases pulsing_step hc hp with hp | ⟨p, he⟩
    · exact hsig.pulsers u hp
    · cases he
  · rcases queue_step hc hq with hq | ⟨he, -⟩
    · exact hsig.keys q hq
    · cases he

/-- A step of the mutex that is not a call by a thread in a pulse. -/
theorem SigInv.mutex (hsig : SigInv w s) {e : Mutex.Event τ} {m : Mutex.State τ}
    (hnot : ∀ t op, e = .call t op → pulsing (s.cond.pc t) = false)
    (hm : Mutex.step cfg s.mutex e = some m) : SigInv w (s.withMutex m) where
  flags := hsig.flags
  word := hsig.word
  saw := hsig.saw
  pulsers t hp := by
    refine (hsig.pulsers t hp).frame hm fun op he => ?_
    have hp : pulsing (s.cond.pc t) = true := hp
    rw [hnot t op he] at hp
    cases hp
  keys := hsig.keys

theorem SigInv.setCall (hsig : SigInv w s) (t : τ) (b : Bool) : SigInv w (s.setCall t b) where
  flags := hsig.flags
  word := hsig.word
  saw := hsig.saw
  pulsers := hsig.pulsers
  keys := hsig.keys

theorem SigInv.step (hsig : SigInv w s) (h : MonInv cfg ty pshared ok 1 s)
    (hserved : Mutex.Served cfg ty pshared ok) {e : Event τ} (hg : HolderSignals s e)
    (hs : Monitor.step cfg s e = some s') : SigInv w s' := by
  cases step_fires hs with
  | mutex hmay hm =>
      refine hsig.mutex ?_ hm
      rintro t op rfl
      have hidle : s.cond.pc t = .idle := by simpa [State.mayCall] using hmay
      rw [hidle]
      rfl
  | @enter t op m hcall _ hm =>
      refine (hsig.mutex ?_ hm).setCall t true
      rintro u op' heq
      injection heq with heq _
      subst heq
      rcases mutexCall_of_phase hcall with ⟨hp, -⟩ | ⟨hp, -⟩ <;>
        cases hpc : s.cond.pc t <;> rw [hpc] at hp <;> first | rfl | cases hp
  | leave _ _ _ hc =>
      refine (hsig.cond (e := .step _) h hserved ?_ ?_ hc).setCall _ false <;> rintro _ _ ⟨⟩
  | @cond e c hmay hc =>
      cases e with
      | startWait t timed => exact hsig.startWait hc
      | pulse t p =>
          refine hsig.cond (e := .pulse t p) h hserved ?_ ?_ hc <;> rintro _ _ ⟨⟩
          have hheld : Mutex.Holds s.mutex t := hg
          exact ⟨by simpa [State.mayTake] using hmay, hheld.1⟩
      | step _ | wake _ _ | interrupt _ | timeout _ =>
          refine hsig.cond h hserved ?_ ?_ hc <;> rintro _ _ ⟨⟩

end Inv

theorem sigInv_reachable (ht : cfg.TidsOk) {es : List (Event τ)}
    (hrun : Run (Monitor.step cfg) HolderSignals (init ty pshared w) es s) :
    MonInv cfg ty pshared Mutex.HolderUnlocks 1 s ∧ SigInv w s := by
  have hserved := Mutex.served_holderUnlocks ht ty pshared
  refine hrun.invariant (I := fun s => MonInv cfg ty pshared Mutex.HolderUnlocks 1 s ∧ SigInv w s)
    ⟨MonInv.init w, SigInv.init⟩ ?_
  rintro s e s' ⟨hmon, hsig⟩ hg hs
  exact ⟨hmon.step hserved holderSignals_promise hg hs, hsig.step hmon hserved hg hs⟩

/-! ## No signal is lost -/

/-- `t` calls `signal` or `broadcast`. -/
def Event.isPulse (t : τ) : Event τ → Bool
  | .cond e => e.isPulse t
  | .mutex _ | .enter _ | .leave _ => false

/-- Every call of a pulse is one move of the word, or is still under way to it. -/
theorem pulses_counted (ht : cfg.TidsOk) {es : List (Event τ)}
    (hrun : Run (Monitor.step cfg) HolderSignals (init ty pshared w) es s) (u : τ) :
    s.cond.movers.count u + (s.cond.pc u).pending = es.countP (Event.isPulse u) := by
  induction hrun with
  | nil => rfl
  | @snoc es s s' e hrun _ hs ih =>
      have hsleepers := (sigInv_reachable ht hrun).1.sleepers
      rw [List.countP_append, List.countP_singleton, ← ih]
      cases step_fires hs with
      | mutex _ _ | enter _ _ _ => rfl
      | cond _ hc => exact (Cond.step_fires hc).counts hsleepers u
      | leave _ _ _ hc => exact (Cond.step_fires hc).counts hsleepers u

/-- The word is back where the wait read it after a multiple of 2 ^ 31 pulses. -/
theorem moved_inj_iff {k n : Nat} (hle : k ≤ n) :
    Cond.moved w n = Cond.moved w k ↔ 2 ^ 31 ∣ n - k := by
  have hw := w.isLt
  rw [← BitVec.toNat_inj, Cond.moved, Cond.moved, BitVec.toNat_sub, BitVec.toNat_sub,
    BitVec.toNat_ofNat, BitVec.toNat_ofNat]
  omega

theorem SigInv.word_eq_iff (hsig : SigInv w s) {timed : Bool} {old : Cond.Word}
    (hpc : s.cond.pc t = .wait timed old) :
    s.since t ≤ s.cond.pulses ∧
      (s.cond.word = old ↔ 2 ^ 31 ∣ s.cond.pulses - s.since t) := by
  have hsaw := hsig.saw t
  rw [hpc] at hsaw
  obtain ⟨hle, rfl⟩ := hsaw
  refine ⟨hle, ?_⟩
  rw [hsig.word]
  exact moved_inj_iff hle

/-- If only the holder of the mutex signals, waits and unlocks: a thread falls
asleep in its wait exactly when the number of pulses that completed since it
called the wait is a multiple of 2 ^ 31, and otherwise goes on at once. The
pulses are the calls that were made, but for those still on their way. -/
theorem wait_sleeps_iff (ht : cfg.TidsOk) {es : List (Event τ)}
    (hrun : Run (step cfg) HolderSignals (init ty pshared w) es s) {timed : Bool}
    {old : Cond.Word} (hpc : s.cond.pc t = .wait timed old)
    (hs : step cfg s (.cond (.step t)) = some s') :
    (∀ u, s.cond.movers.count u + (s.cond.pc u).pending = es.countP (Event.isPulse u)) ∧
      s.since t ≤ s.cond.pulses ∧
      (s'.cond.asleep t = true ↔ 2 ^ 31 ∣ s.cond.pulses - s.since t) ∧
      (s'.cond.asleep t = true ∨ s'.cond.pc t = .lockMutex false) := by
  obtain ⟨-, hsig⟩ := sigInv_reachable ht hrun
  obtain ⟨hle, hiff⟩ := hsig.word_eq_iff hpc
  refine ⟨pulses_counted ht hrun, hle, ?_⟩
  rw [← hiff]
  cases step_fires hs with
  | cond _ hc =>
      cases Cond.step_fires hc with
      | sleep _ hat =>
          rw [hpc] at hat
          injection hat with _ hold
          have hasleep : ∀ {c : Cond.State τ} {b : Bool},
              ({ c with queue := (t, b) :: c.queue } : Cond.State τ).asleep t = true := by
            simp [Cond.State.asleep]
          exact ⟨⟨fun _ => hold.symm, fun _ => hasleep⟩, .inl hasleep⟩
      | swap _ hat =>
          rw [hpc] at hat
          cases hat
      | own hawake hown =>
          rw [hpc] at hown
          cases hown with
          | changed hne =>
              refine ⟨⟨fun hasleep => ?_, fun heq => absurd heq hne⟩, .inr ?_⟩
              · have hasleep : s.cond.asleep t = true := hasleep
                rw [hawake] at hasleep
                cases hasleep
              · exact Function.update_self ..

/-! ## A broadcast wakes everybody -/

/-- All sleepers have the key that a wake uses. -/
theorem SigInv.wakeable_eq (hsig : SigInv w s) :
    Cond.wakeable s.cond = s.cond.queue.map Prod.fst := by
  rw [Cond.wakeable, List.filter_eq_self.mpr]
  intro q hq
  rw [hsig.keys q hq, hsig.word, condIsShared_moved]
  exact decide_eq_true rfl

theorem SigInv.broadcast (hsig : SigInv w s) {woken : List τ}
    (hpc : s.cond.pc t = .wake .broadcast) (hfew : s.cond.queue.length < 2 ^ 31)
    (hs : Monitor.step cfg s (.cond (.wake t woken)) = some s') : s'.cond.queue = [] := by
  cases step_fires hs with
  | cond _ hc =>
      cases Cond.step_fires hc with
      | wake hat hmem hnodup hlen =>
          rw [hpc] at hat
          injection hat with hat
          subst hat
          have hall : ∀ u ∈ Cond.wakeable s.cond, u ∈ woken := by
            have hcount : (Cond.wakeable s.cond).length ≤ woken.length := by
              have hq : (Cond.wakeable s.cond).length = s.cond.queue.length := by
                rw [hsig.wakeable_eq, List.length_map]
              rw [hlen, hq, Cond.Pulse.counter]
              omega
            have hperm := (List.Nodup.subperm hnodup hmem).perm_of_length_le hcount
            intro u hu
            exact hperm.mem_iff.mpr hu
          refine List.filter_eq_nil_iff.mpr fun q hq => ?_
          have hin : q.1 ∈ woken := by
            refine hall q.1 ?_
            rw [hsig.wakeable_eq]
            exact List.mem_map_of_mem hq
          simpa using hin

/-- Those that called their wait before pulse number `k` do not sleep, until the
counter comes back. -/
def AwakeSince (k : Nat) (s : State τ) : Prop :=
  k ≤ s.cond.pulses ∧
    ∀ u, s.since u < k → s.cond.pulses - s.since u < 2 ^ 31 → s.cond.asleep u = false

theorem AwakeSince.cond {k : Nat} (h : AwakeSince k s) (hsig : SigInv w s) {e : Cond.Event τ}
    {c : Cond.State τ} (hc : Cond.step s.cond e = some c) :
    AwakeSince k ((s.onCall e).withCond c) := by
  obtain ⟨hk, hawake⟩ := h
  have hgrow : s.cond.pulses ≤ c.pulses := by
    rcases (Cond.step_moves hsig.flags hc).1.pulses with ⟨hp, -⟩ | ⟨hp, -⟩ <;> omega
  refine ⟨Nat.le_trans hk hgrow, fun u hbefore hwrap => ?_⟩
  have hsince : ((s.onCall e).withCond c).since u = s.since u := by
    cases e with
    | startWait t timed =>
        have hbefore : Function.update s.since t s.cond.pulses u < k := hbefore
        show Function.update s.since t s.cond.pulses u = s.since u
        rw [Function.update_apply] at hbefore ⊢
        split at hbefore
        · omega
        · next hu => rw [if_neg hu]
    | _ => rfl
  rw [hsince] at hbefore hwrap
  have hwrap : c.pulses - s.since u < 2 ^ 31 := hwrap
  by_contra hasleep
  obtain ⟨q, hq, rfl⟩ := Cond.asleep_iff.mp (Bool.not_eq_false _ ▸ hasleep)
  rcases queue_step hc hq with hq | ⟨-, -, timed, hpc⟩
  · have hno := hawake q.1 hbefore (by omega)
    rw [Cond.asleep_iff.mpr ⟨q, hq, rfl⟩] at hno
    cases hno
  · obtain ⟨hle, hiff⟩ := hsig.word_eq_iff hpc
    have hdvd := hiff.mp rfl
    exact Nat.not_dvd_of_pos_of_lt (by omega) (by omega) hdvd

theorem AwakeSince.step {k : Nat} (h : AwakeSince k s) (hsig : SigInv w s) {e : Event τ}
    (hs : Monitor.step cfg s e = some s') : AwakeSince k s' := by
  cases step_fires hs with
  | mutex _ _ | enter _ _ _ => exact h
  | cond _ hc => exact h.cond hsig hc
  | leave _ _ _ hc => exact h.cond (e := .step _) hsig hc

/-- If only the holder of the mutex signals, waits and unlocks: when a broadcast
returns nobody sleeps, and a thread that called its wait before the broadcast
never falls asleep in it again until 2 ^ 31 pulses have completed since its call. -/
theorem broadcast_wakes_all (ht : cfg.TidsOk) {es₁ es₂ : List (Event τ)} {s₁ s₂ s₃ : State τ}
    {woken : List τ} (hrun₁ : Run (step cfg) HolderSignals (init ty pshared w) es₁ s₁)
    (hpc : s₁.cond.pc t = .wake .broadcast) (hfew : s₁.cond.queue.length < 2 ^ 31)
    (hs : step cfg s₁ (.cond (.wake t woken)) = some s₂)
    (hrun₂ : Run (step cfg) HolderSignals s₂ es₂ s₃) :
    s₂.cond.queue = [] ∧ ∀ u, s₃.since u < s₁.cond.pulses →
      s₃.cond.pulses - s₃.since u < 2 ^ 31 → s₃.cond.asleep u = false := by
  obtain ⟨-, hsig⟩ := sigInv_reachable ht hrun₁
  have hempty := hsig.broadcast hpc hfew hs
  have hstart : AwakeSince s₁.cond.pulses s₂ := by
    refine ⟨?_, fun u _ _ => ?_⟩
    · cases step_fires hs with
      | cond _ hc =>
          cases Cond.step_fires hc with
          | wake _ _ _ _ => exact Nat.le_refl _
    · rw [Cond.State.asleep, hempty]
      rfl
  have hfirst := hrun₁.snoc (show HolderSignals s₁ (.cond (.wake t woken)) from trivial) hs
  refine ⟨hempty, ?_⟩
  suffices hend : AwakeSince s₁.cond.pulses s₃ from hend.2
  clear hpc hs
  induction hrun₂ with
  | nil => exact hstart
  | snoc hrun _ hstep ih =>
      exact ih.step (sigInv_reachable ht (hfirst.append hrun)).2 hstep

end Run

/-! ## A waiter and a broadcaster -/

/-- Thread `t` locks the mutex and waits until it is at its futex wait. -/
def lockAndWait {T : Type} (t : T) : List (Event T) :=
  [.mutex (.call t .lock), .mutex (.step t), .mutex (.step t), .cond (.startWait t false),
    .cond (.step t), .enter t, .mutex (.step t), .mutex (.step t), .leave t]

/-- Thread `t` locks the mutex and broadcasts, up to its futex wake. -/
def lockAndBroadcast {T : Type} (t : T) : List (Event T) :=
  [.mutex (.call t .lock), .mutex (.step t), .mutex (.step t), .cond (.pulse t .broadcast),
    .cond (.step t), .cond (.step t), .cond (.step t)]

/-- The broadcast comes first, so the waiter does not sleep. -/
theorem wait_sleeps_iff_broadcast :
    ∃ s s', Run (step Mutex.twoThreads) HolderSignals (init .normal false 0#32)
        (lockAndWait 0 ++ lockAndBroadcast 1) s ∧ s.cond.pc 0 = .wait false 0#32 ∧
      s.cond.pulses = 1 ∧ step Mutex.twoThreads s (.cond (.step 0)) = some s' ∧
      s'.cond.asleep 0 = false := by
  have hsome : (runEvents (fun s e => if HolderSignals s e then step Mutex.twoThreads s e else none)
      (init .normal false 0#32) (lockAndWait 0 ++ lockAndBroadcast 1)).isSome := by decide
  have hrun : Run (step Mutex.twoThreads) HolderSignals (init .normal false 0#32)
      (lockAndWait 0 ++ lockAndBroadcast 1) _ := Run.of_checked (Option.some_get hsome).symm
  have hnext : (step Mutex.twoThreads (Option.get _ hsome) (.cond (.step 0))).isSome := rfl
  have hs := (Option.some_get hnext).symm
  refine ⟨_, _, hrun, rfl, rfl, hs, ?_⟩
  have hiff := (wait_sleeps_iff Mutex.twoThreads_tidsOk hrun rfl hs).2.2.1
  by_contra hasleep
  have hdvd : 2 ^ 31 ∣ 1 := hiff.mp (by simpa using hasleep)
  omega

/-- The waiter sleeps first, and the broadcast wakes it. -/
theorem broadcast_wakes_all_sleeper :
    ∃ s s', Run (step Mutex.twoThreads) HolderSignals (init .normal false 0#32)
        (lockAndWait 0 ++ .cond (.step 0) :: lockAndBroadcast 1) s ∧ s.cond.asleep 0 = true ∧
      step Mutex.twoThreads s (.cond (.wake 1 [0])) = some s' ∧ s'.cond.queue = [] := by
  have hsome : (runEvents (fun s e => if HolderSignals s e then step Mutex.twoThreads s e else none)
      (init .normal false 0#32)
      (lockAndWait 0 ++ .cond (.step 0) :: lockAndBroadcast 1)).isSome := by
    decide
  have hnext : (step Mutex.twoThreads (Option.get _ hsome) (.cond (.wake 1 [0]))).isSome := by
    decide +revert
  have hrun : Run (step Mutex.twoThreads) HolderSignals (init .normal false 0#32)
      (lockAndWait 0 ++ .cond (.step 0) :: lockAndBroadcast 1) _ :=
    Run.of_checked (Option.some_get hsome).symm
  have hs := (Option.some_get hnext).symm
  exact ⟨_, _, hrun, rfl, hs,
    (broadcast_wakes_all Mutex.twoThreads_tidsOk hrun rfl (show 1 < 2 ^ 31 by decide) hs .nil).1⟩

end Pisces.Monitor
