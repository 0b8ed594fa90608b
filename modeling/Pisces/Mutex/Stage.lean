import Mathlib.Algebra.Order.BigOperators.Group.Finset
import Pisces.Mutex.Progress

/-!
# Serving one thread after the other

To show that nobody is stuck it is enough to say who can go on. The schedule here
lets one thread at a time go on alone, from where it is to its return (`Stage`),
and needs neither a new request nor the clock nor a wake-up for no reason. If in
every state that an invariant describes some thread inside can finish its call, or
some idle holder can unlock, then everybody can be served (`Service.servable`): each
stage leaves one thread less inside, or as many inside and the mutex one lock less
deep.

What the two kinds of mutex have in common ends here. Who can go on is another
question for each of them.
-/

namespace Pisces.Mutex

open Pisces.Lib

variable {τ : Type}

/-- What happens without a new request, without the clock and without a wake-up for no
reason. -/
def Event.Regular : Event τ → Prop
  | .step _ | .wake _ _ | .call _ .unlock => True
  | .call _ _ | .expire _ | .interrupt _ | .timeout _ => False

/-- A promise about the callers says nothing about threads that go on. -/
structure Allows (ok : State τ → Event τ → Prop) : Prop where
  step : ∀ s t, ok s (.step t)
  wake : ∀ s t u, ok s (.wake t u)

theorem Pc.afterWait_owes {pc pc' : Pc} (h : pc.afterWait = some pc') : pc'.owes = pc.owes := by
  cases pc with
  | nWait _ _ | wait _ _ _ =>
      obtain rfl := Option.some.inj h
      rfl
  | _ => cases h

variable [DecidableEq τ] {cfg : Config τ} {ok : State τ → Event τ → Prop} {ty : MutexType}
  {pshared : Bool} {s s' s₁ : State τ} {t u : τ} {op : Op} {r : Ret}

/-- Thread `t` alone goes on until the call that it is in returns. Another thread is
woken at most. -/
structure Stage (cfg : Config τ) (ok : State τ → Event τ → Prop) (s : State τ) (t : τ)
    (op : Op) (r : Ret) (s' : State τ) : Prop where
  run : ∃ es, (∀ e ∈ es, e.Regular) ∧ Run (step cfg) ok s es s'
  idle : s'.pc t = .idle
  others : ∀ u, u ≠ t → s'.pc u = s.pc u ∨ (s.pc u).afterWait = some (s'.pc u)
  log : s'.log = (t, op, r) :: s.log

/-- A first step before the rest. -/
theorem Stage.cons {e : Event τ} (h : Stage cfg ok s₁ t op r s') (hs : step cfg s e = some s₁)
    (hok : ok s e) (he : e.Regular) (hothers : ∀ u, u ≠ t → s₁.pc u = s.pc u)
    (hlog : s₁.log = s.log) : Stage cfg ok s t op r s' := by
  obtain ⟨es, hes, hrun⟩ := h.run
  have hone : Run (step cfg) ok s [e] s₁ := .snoc .nil hok hs
  refine ⟨⟨e :: es, List.forall_mem_cons.mpr ⟨he, hes⟩, hone.append hrun⟩, h.idle, ?_, ?_⟩
  · intro u hu
    rw [← hothers u hu]
    exact h.others u hu
  · rw [h.log, hlog]

/-- The only step of a stage. -/
theorem Stage.one {e : Event τ} (hs : step cfg s e = some s') (hok : ok s e) (he : e.Regular)
    (hidle : s'.pc t = .idle)
    (hothers : ∀ u, u ≠ t → s'.pc u = s.pc u ∨ (s.pc u).afterWait = some (s'.pc u))
    (hlog : s'.log = (t, op, r) :: s.log) : Stage cfg ok s t op r s' :=
  ⟨⟨[e], List.forall_mem_singleton.mpr he, .snoc .nil hok hs⟩, hidle, hothers, hlog⟩

theorem stepGoto {w : Word} {pc : Pc} (hq : t ∉ s.queue)
    (hst : (s.pc t).step (cfg.tid t) s.word = some (w, .goto pc)) :
    step cfg s (.step t) = some (s.advance t w (.goto pc)) := by
  simp only [step, if_neg hq, hst, Option.map_some]

theorem advance_goto_pc (s : State τ) (t : τ) (w : Word) (pc : Pc) :
    (s.advance t w (.goto pc)).pc t = pc := by
  rw [advance_pc, if_pos rfl]
  rfl

section Steps

variable (hall : Allows ok)

include hall

/-- A step of its own after which the thread goes on. -/
theorem Stage.goto {w : Word} {pc : Pc} (hq : t ∉ s.queue)
    (hst : (s.pc t).step (cfg.tid t) s.word = some (w, .goto pc))
    (h : Stage cfg ok (s.advance t w (.goto pc)) t op r s') : Stage cfg ok s t op r s' := by
  refine h.cons (stepGoto hq hst) (hall.step s t) trivial (fun u hu => ?_) rfl
  rw [advance_pc, if_neg hu]

/-- A step of its own with which the thread returns. -/
theorem Stage.ret {w : Word} (hq : t ∉ s.queue)
    (hst : (s.pc t).step (cfg.tid t) s.word = some (w, .ret op r)) :
    Stage cfg ok s t op r (s.advance t w (.ret op r)) := by
  refine .one ?_ (hall.step s t) trivial ?_ (fun u hu => .inl ?_) rfl
  · simp only [step, if_neg hq, hst, Option.map_some]
  · rw [advance_pc, if_pos rfl]
    rfl
  · rw [advance_pc, if_neg hu]

/-- A thread that runs alone to its return. -/
theorem Returns.stage {n : ℕ} {w : Word} {pc : Pc} (h : Returns (cfg.tid t) n w pc op r)
    (hw : s.word = w) (hpc : s.pc t = pc) (hq : t ∉ s.queue) :
    ∃ s', Stage cfg ok s t op r s' := by
  induction h generalizing s with
  | ret hst =>
      rw [← hpc, ← hw] at hst
      exact ⟨_, .ret hall hq hst⟩
  | @goto n w w' pc pc' op r hst _ ih =>
      rw [← hpc, ← hw] at hst
      obtain ⟨s', hstage⟩ := ih (s := s.advance t w' (.goto pc')) rfl (advance_goto_pc ..) hq
      exact ⟨s', hstage.goto hall hq hst⟩

/-- A futex wake, of a sleeper if there is one. -/
theorem wake_stage {sh : Bool} (hsh : (s.pc t).wakesShared = some sh)
    (hasleep : ∀ u ∈ s.queue, (s.pc u).afterWait ≠ none) :
    ∃ s', Stage cfg ok s t .unlock .ok s' := by
  by_cases hsome : ∃ u ∈ s.queue, (s.pc u).waitsShared = sh
  · obtain ⟨u, hu, hkey⟩ := hsome
    obtain ⟨pc, haw⟩ := Option.ne_none_iff_exists'.mp (hasleep u hu)
    refine ⟨(s.resume u pc).ret t .unlock .ok,
      .one ?_ (hall.wake s t (some u)) trivial ?_ (fun v hv => ?_) rfl⟩
    · simp only [step, hsh, haw, if_pos (And.intro hu hkey)]
    · rw [ret_pc, if_pos rfl]
    · rw [ret_pc, if_neg hv, resume_pc]
      split
      · next hvu =>
          rw [hvu]
          exact .inr haw
      · exact .inl rfl
  · refine ⟨s.ret t .unlock .ok, .one ?_ (hall.wake s t none) trivial ?_ (fun v hv => .inl ?_) rfl⟩
    · simp only [step, hsh, if_neg hsome]
    · rw [ret_pc, if_pos rfl]
    · rw [ret_pc, if_neg hv]

end Steps

/-! ## What a stage leaves behind -/

theorem Stage.others_op (h : Stage cfg ok s t op r s') (hu : u ≠ t) :
    (s'.pc u).op = (s.pc u).op := by
  rcases h.others u hu with heq | haw
  · rw [heq]
  · exact Pc.afterWait_op haw

/-- How often `t` holds the mutex, by the calls that have come back to it and the
`unlock` that it may still be in. -/
def State.held (s : State τ) (t : τ) : ℕ := s.locks t - (s.unlocks t + (s.pc t).owes)

theorem Books.held {d : τ → ℕ} (h : Books s d) (t : τ) : s.held t = d t := by
  have hb := h t
  rw [State.held]
  omega

/-- Nobody else holds the mutex more or less often. -/
theorem Stage.held_other (h : Stage cfg ok s t op r s') (hu : u ≠ t) : s'.held u = s.held u := by
  have howes : (s'.pc u).owes = (s.pc u).owes := by
    rcases h.others u hu with heq | haw
    · rw [heq]
    · exact Pc.afterWait_owes haw
  rw [State.held, State.held, locks_of_log_cons h.log, unlocks_of_log_cons h.log, if_neg hu,
    if_neg hu, howes]
  rfl

/-- An `unlock` from outside, with success, takes one. -/
theorem Stage.held_unlock (h : Stage cfg ok s t .unlock .ok s') (hidle : s.pc t = .idle)
    (hpos : 0 < s.held t) : s'.held t < s.held t := by
  have hlocks := locks_of_log_cons h.log t
  have hunlocks := unlocks_of_log_cons h.log t
  simp only [lockGain, unlockGain, if_true, ne_eq, not_true_eq_false, false_and, if_false,
    and_self] at hlocks hunlocks
  simp only [State.held, h.idle, hidle, Pc.owes] at hpos ⊢
  omega

/-! ## One after the other -/

/-- All calls have returned, and the mutex is free. -/
structure Settled (ty : MutexType) (pshared : Bool) (s : State τ) : Prop where
  idle : ∀ t, s.pc t = .idle
  queue : s.queue = []
  word : s.word = pthreadMutexInit ty pshared

/-- All calls can return, and the mutex be free, and everybody who does not hold the
mutex and asks for it gets it on the way. -/
def Servable (cfg : Config τ) (ok : State τ → Event τ → Prop) (ty : MutexType) (pshared : Bool)
    (s : State τ) : Prop :=
  ∃ es s' new, (∀ e ∈ es, e.Regular) ∧ Run (step cfg) ok s es s' ∧ Settled ty pshared s' ∧
    s'.log = new ++ s.log ∧
    ∀ t op, (s.pc t).op = some op → op ≠ .unlock → s.held t = 0 → (t, op, .ok) ∈ new

/-- How a state goes on: a thread that is inside finishes its call, with the mutex if it
has asked for it, or a holder that is idle unlocks the mutex. -/
inductive Onward (cfg : Config τ) (ok : State τ → Event τ → Prop) (ty : MutexType)
    (pshared : Bool) (s : State τ) : Prop
  | settled : Settled ty pshared s → Onward cfg ok ty pshared s
  | finish {t : τ} {op : Op} {r : Ret} {s' : State τ} : Stage cfg ok s t op r s' →
      (s.pc t).op = some op → (op ≠ .unlock → s.held t = 0 → r = .ok) →
      Onward cfg ok ty pshared s
  | unlock {t : τ} {s' : State τ} : Stage cfg ok s t .unlock .ok s' → s.pc t = .idle →
      0 < s.held t → Onward cfg ok ty pshared s

/-- An invariant from which every state goes on. -/
structure Service (cfg : Config τ) (ok : State τ → Event τ → Prop) (ty : MutexType)
    (pshared : Bool) (I : State τ → Prop) : Prop where
  keeps : ∀ {s t op r s'}, I s → Stage cfg ok s t op r s' → I s'
  next : ∀ {s}, I s → Onward cfg ok ty pshared s

/-- One stage, and the rest. -/
theorem Stage.servable (h : Stage cfg ok s t op r s₁)
    (hr : ∀ op', (s.pc t).op = some op' → op' = op ∧ (op ≠ .unlock → s.held t = 0 → r = .ok))
    (hrest : Servable cfg ok ty pshared s₁) : Servable cfg ok ty pshared s := by
  obtain ⟨es, hes, hrun⟩ := h.run
  obtain ⟨es', s', new, hes', hrun', hsettled, hlog, hserved⟩ := hrest
  refine ⟨es ++ es', s', new ++ [(t, op, r)], ?_, hrun.append hrun', hsettled, ?_, ?_⟩
  · exact List.forall_mem_append.mpr ⟨hes, hes'⟩
  · rw [hlog, h.log, List.append_assoc]
    rfl
  · intro u op' hop hacq hno
    by_cases hu : u = t
    · subst hu
      obtain ⟨rfl, hok⟩ := hr op' hop
      rw [hok hacq hno]
      exact List.mem_append_right _ List.mem_cons_self
    · refine List.mem_append_left _ (hserved u op' ?_ hacq ?_)
      · rw [h.others_op hu, hop]
      · rw [h.held_other hu, hno]

section All

variable [Fintype τ]

/-- How many threads are inside. -/
def State.active (s : State τ) : ℕ := (Finset.univ.filter fun t => (s.pc t).op ≠ none).card

/-- How often the mutex is held, by all threads. -/
def State.heldAll (s : State τ) : ℕ := ∑ t, s.held t

theorem Stage.active (h : Stage cfg ok s t op r s') (hin : (s.pc t).op ≠ none) :
    s'.active < s.active := by
  have hset : (Finset.univ.filter fun u => (s'.pc u).op ≠ none) =
      (Finset.univ.filter fun u => (s.pc u).op ≠ none).erase t := by
    ext u
    simp only [Finset.mem_filter, Finset.mem_univ, true_and, Finset.mem_erase]
    by_cases hu : u = t
    · subst hu
      simp [h.idle, Pc.op]
    · simp [hu, h.others_op hu]
  rw [State.active, State.active, hset]
  exact Finset.card_erase_lt_of_mem (Finset.mem_filter.mpr ⟨Finset.mem_univ t, hin⟩)

/-- A call that is made and returns leaves as many inside. -/
theorem Stage.active_of_idle (h : Stage cfg ok s t op r s') (hidle : s.pc t = .idle) :
    s'.active = s.active := by
  rw [State.active, State.active]
  congr 1
  ext u
  simp only [Finset.mem_filter, Finset.mem_univ, true_and]
  by_cases hu : u = t
  · rw [hu, h.idle, hidle]
  · rw [h.others_op hu]

theorem Stage.heldAll (h : Stage cfg ok s t .unlock .ok s') (hidle : s.pc t = .idle)
    (hpos : 0 < s.held t) : s'.heldAll < s.heldAll := by
  refine Finset.sum_lt_sum (fun u _ => ?_) ⟨t, Finset.mem_univ t, h.held_unlock hidle hpos⟩
  by_cases hu : u = t
  · rw [hu]
    exact (h.held_unlock hidle hpos).le
  · exact (h.held_other hu).le

/-- By induction on the number of threads inside, and for as many on how often the mutex is
held. -/
theorem Service.servable {I : State τ → Prop} (hI : Service cfg ok ty pshared I) (h : I s) :
    Servable cfg ok ty pshared s := by
  induction hn : s.active using Nat.strong_induction_on generalizing s with
  | _ n ihActive =>
    induction hm : s.heldAll using Nat.strong_induction_on generalizing s with
    | _ m ihHeld =>
      cases hI.next h with
      | settled hsettled =>
          refine ⟨[], s, [], by simp, .nil, hsettled, rfl, fun t op hop => ?_⟩
          rw [hsettled.idle t] at hop
          cases hop
      | @finish t op r s₁ hstage hop hr =>
          have hless := hstage.active (by rw [hop]; exact Option.some_ne_none op)
          refine hstage.servable (fun op' hop' => ?_)
            (ihActive s₁.active (by omega) (hI.keeps h hstage) rfl)
          rw [hop, Option.some.injEq] at hop'
          exact ⟨hop'.symm, hr⟩
      | @unlock t s₁ hstage hidle hpos =>
          have hsame := hstage.active_of_idle hidle
          have hless := hstage.heldAll hidle hpos
          refine hstage.servable (fun op' hop' => ?_)
            (ihHeld s₁.heldAll (by omega) (hI.keeps h hstage) (by omega) rfl)
          rw [hidle] at hop'
          cases hop'

end All

end Pisces.Mutex
