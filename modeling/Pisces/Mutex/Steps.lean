import Pisces.Mutex.Model

/-!
# What a step can do

`step` is one function over six kinds of event, with guards inside matches.
`Fires` says the same as eight rules, one for each way a state can change,
and `step_fires` is the only proof that opens `step`. The frame lemmas after
it say what each rule leaves alone.
-/

namespace Pisces.Mutex

variable {τ : Type} [DecidableEq τ]

/-- The word was the expected one and is exchanged, or it was not and stays. -/
theorem bionicCmpxchg_cases {old new w w' : Word} {ok fail nx : Next}
    (hs : bionicCmpxchg old new w ok fail = (w', nx)) :
    w = old ∧ w' = new ∧ nx = ok ∨ w ≠ old ∧ w' = w ∧ nx = fail := by
  rw [bionicCmpxchg] at hs
  split at hs
  · next hw =>
      obtain ⟨rfl, rfl⟩ := Prod.mk.inj hs
      exact .inl ⟨hw, rfl, rfl⟩
  · next hw =>
      obtain ⟨rfl, rfl⟩ := Prod.mk.inj hs
      exact .inr ⟨hw, rfl, rfl⟩

/-- `Fires cfg s e s'`: event `e` takes `s` to `s'`. -/
inductive Fires (cfg : Config τ) (s : State τ) : Event τ → State τ → Prop
  | call {t : τ} {op : Op} : s.pc t = .idle →
      Fires cfg s (.call t op) (s.setPc t (.enter op))
  | step {t : τ} {w : Word} {nx : Next} : t ∉ s.queue →
      (s.pc t).step (cfg.tid t) s.word = some (w, nx) →
      Fires cfg s (.step t) (s.advance t w nx)
  | expire {t : τ} : t ∉ s.queue → (s.pc t).isClock = true →
      Fires cfg s (.expire t) (s.ret t .lockTimeoutNp .ebusy)
  | wakeNone {t : τ} {sh : Bool} : (s.pc t).wakesShared = some sh →
      (∀ u ∈ s.queue, (s.pc u).waitsShared ≠ sh) →
      Fires cfg s (.wake t none) (s.ret t .unlock .ok)
  | wakeSome {t u : τ} {sh : Bool} {pc : Pc} : (s.pc t).wakesShared = some sh →
      (s.pc u).afterWait = some pc → u ∈ s.queue → (s.pc u).waitsShared = sh →
      Fires cfg s (.wake t (some u)) ((s.resume u pc).ret t .unlock .ok)
  | interrupt {u : τ} {pc : Pc} : (s.pc u).afterWait = some pc → u ∈ s.queue →
      Fires cfg s (.interrupt u) (s.resume u pc)
  | timeout {u : τ} {pc : Pc} : (s.pc u).afterWait = some pc → u ∈ s.queue →
      Fires cfg s (.timeout u) (s.resume u pc)
  | timeoutBusy {u : τ} {op : Op} {mtype mvalue : Word} {pc : Pc} :
      s.pc u = .wait op mtype mvalue → u ∈ s.queue →
      Fires cfg s (.timeout u) ((s.resume u pc).ret u .lockTimeoutNp .ebusy)

theorem step_fires {cfg : Config τ} {s s' : State τ} {e : Event τ}
    (h : step cfg s e = some s') : Fires cfg s e s' := by
  cases e with
  | call t op =>
      simp only [step] at h
      split at h
      · next hpc => rw [Option.some.injEq] at h; subst h; exact .call hpc
      · cases h
  | step t =>
      simp only [step] at h
      split at h
      · cases h
      · next hq =>
          rw [Option.map_eq_some_iff] at h
          obtain ⟨⟨w, nx⟩, hst, rfl⟩ := h
          exact .step hq hst
  | expire t =>
      simp only [step] at h
      split at h
      · next hg => rw [Option.some.injEq] at h; subst h; exact .expire hg.1 hg.2
      · cases h
  | wake t woken =>
      cases woken with
      | none =>
          simp only [step] at h
          split at h
          · cases h
          · next sh hsh =>
              split at h
              · cases h
              · next hno =>
                  rw [Option.some.injEq] at h
                  subst h
                  exact .wakeNone hsh fun u hu heq => hno ⟨u, hu, heq⟩
      | some u =>
          simp only [step] at h
          split at h
          · next sh pc hsh hpc =>
              split at h
              · next hg =>
                  rw [Option.some.injEq] at h
                  subst h
                  exact .wakeSome hsh hpc hg.1 hg.2
              · cases h
          · cases h
  | interrupt u =>
      simp only [step] at h
      split at h
      · next pc hpc =>
          split at h
          · next hq => rw [Option.some.injEq] at h; subst h; exact .interrupt hpc hq
          · cases h
      · cases h
  | timeout u =>
      simp only [step] at h
      split at h
      · next pc hpc =>
          split at h
          · next hg =>
              split at h
              · rw [Option.some.injEq] at h; subst h; exact .timeout hpc hg.1
              · next hne =>
                  split at h
                  · rw [Option.some.injEq] at h
                    subst h
                    cases hu : s.pc u <;> rw [hu] at hpc <;>
                      simp only [Pc.afterWait, reduceCtorEq] at hpc
                    · exact absurd hu (hne _ _)
                    · exact .timeoutBusy hu hg.1
                  · rw [Option.some.injEq] at h; subst h; exact .timeout hpc hg.1
          · cases h
      · cases h

/-! ## Frames -/

@[simp] theorem setPc_log (s : State τ) (t : τ) (pc : Pc) : (s.setPc t pc).log = s.log := rfl

@[simp] theorem setPc_pc (s : State τ) (t u : τ) (pc : Pc) :
    (s.setPc t pc).pc u = if u = t then pc else s.pc u := by
  simp only [State.setPc, Function.update_apply]

@[simp] theorem ret_pc (s : State τ) (t u : τ) (op : Op) (r : Ret) :
    (s.ret t op r).pc u = if u = t then .idle else s.pc u := setPc_pc s t u .idle

@[simp] theorem resume_pc (s : State τ) (t u : τ) (pc : Pc) :
    (s.resume t pc).pc u = if u = t then pc else s.pc u := setPc_pc s t u pc

@[simp] theorem advance_word (s : State τ) (t : τ) (w : Word) (nx : Next) :
    (s.advance t w nx).word = w := by
  cases nx <;> rfl

/-- Where a thread is after its own step; asleep, it stays where it was. -/
def Next.pc (old : Pc) : Next → Pc
  | .goto pc => pc
  | .ret _ _ => .idle
  | .sleep => old

@[simp] theorem advance_pc (s : State τ) (t u : τ) (w : Word) (nx : Next) :
    (s.advance t w nx).pc u = if u = t then nx.pc (s.pc t) else s.pc u := by
  cases nx with
  | goto pc => exact setPc_pc s t u pc
  | ret op r => exact ret_pc s t u op r
  | sleep =>
      show s.pc u = if u = t then s.pc t else s.pc u
      by_cases h : u = t
      · rw [if_pos h, h]
      · rw [if_neg h]

/-- The queue after a thread's own step: the thread joins it or nobody does. -/
theorem advance_queue (s : State τ) (t : τ) (w : Word) (nx : Next) :
    (s.advance t w nx).queue = if nx = .sleep then t :: s.queue else s.queue := by
  cases nx <;> rfl

/-! ## Counting returned calls -/

/-- What a result of `op` does to a thread's count of successful locks. -/
def lockGain (op : Op) (r : Ret) : Nat := if op ≠ .unlock ∧ r = .ok then 1 else 0

/-- What a result of `op` does to a thread's count of successful unlocks. -/
def unlockGain (op : Op) (r : Ret) : Nat := if op = .unlock ∧ r = .ok then 1 else 0

theorem locks_of_log_eq {s s' : State τ} (h : s'.log = s.log) (u : τ) :
    s'.locks u = s.locks u := by
  rw [State.locks, State.locks, h]

theorem unlocks_of_log_eq {s s' : State τ} (h : s'.log = s.log) (u : τ) :
    s'.unlocks u = s.unlocks u := by
  rw [State.unlocks, State.unlocks, h]

theorem locks_of_log_cons {s s' : State τ} {t : τ} {op : Op} {r : Ret}
    (h : s'.log = (t, op, r) :: s.log) (u : τ) :
    s'.locks u = s.locks u + if u = t then lockGain op r else 0 := by
  rw [State.locks, State.locks, h, List.countP_cons, lockGain]
  by_cases hu : u = t
  · subst hu; simp
  · have hu' : ¬ t = u := fun h => hu h.symm
    simp [hu, hu']

theorem unlocks_of_log_cons {s s' : State τ} {t : τ} {op : Op} {r : Ret}
    (h : s'.log = (t, op, r) :: s.log) (u : τ) :
    s'.unlocks u = s.unlocks u + if u = t then unlockGain op r else 0 := by
  rw [State.unlocks, State.unlocks, h, List.countP_cons, unlockGain]
  by_cases hu : u = t
  · subst hu; simp
  · have hu' : ¬ t = u := fun h => hu h.symm
    simp [hu, hu']

/-- An `unlock` that has let go of the mutex and still has its futex wake to
make has not returned yet, so it is not counted yet either. -/
def Pc.owes : Pc → Nat
  | .wake _ | .nWake _ => 1
  | _ => 0

/-- The books balance: every thread has come back from as many successful
locks as from unlocks, plus the depth `d` it holds the mutex at, plus the
unlock it still owes a return from. -/
def Books (s : State τ) (d : τ → Nat) : Prop :=
  ∀ t, s.locks t = s.unlocks t + d t + (s.pc t).owes

section Books

variable {s s' : State τ} {d d' : τ → Nat} {t : τ}

theorem Books.move (h : Books s d) {pc : Pc} (hlog : s'.log = s.log)
    (hpc : ∀ u, s'.pc u = if u = t then pc else s.pc u) (howes : pc.owes = (s.pc t).owes) :
    Books s' d := by
  intro u
  rw [locks_of_log_eq hlog, unlocks_of_log_eq hlog, hpc, h u]
  split
  · next hu => rw [howes, hu]
  · rfl

/-- A return that leaves the depth alone pays what the thread owes. -/
theorem Books.finish (h : Books s d) {op : Op} {r : Ret} (hlog : s'.log = (t, op, r) :: s.log)
    (hpc : ∀ u, s'.pc u = if u = t then .idle else s.pc u)
    (hgain : lockGain op r + (s.pc t).owes = unlockGain op r) : Books s' d := by
  intro u
  rw [locks_of_log_cons hlog, unlocks_of_log_cons hlog, hpc, h u]
  split
  · next hu => rw [hu, show Pc.idle.owes = 0 from rfl]; omega
  · omega

/-- What a thread's own step adds to its two counts. -/
def Next.gains : Next → Nat × Nat
  | .ret op r => (lockGain op r, unlockGain op r)
  | .goto _ | .sleep => (0, 0)

/-- A thread's own step: what it gains in returned calls it gains in depth. -/
theorem Books.advance (h : Books s d) {w : Word} {nx : Next} (howes : (s.pc t).owes = 0)
    (hother : ∀ u, u ≠ t → d' u = d u)
    (hgain : nx.gains.1 + d t = nx.gains.2 + d' t + (nx.pc (s.pc t)).owes) :
    Books (s.advance t w nx) d' := by
  intro u
  have hlocks : (s.advance t w nx).locks u = s.locks u + if u = t then nx.gains.1 else 0 := by
    cases nx with
    | goto _ | sleep => rw [Next.gains, ite_self]; exact locks_of_log_eq rfl u
    | ret op r => exact locks_of_log_cons rfl u
  have hunlocks : (s.advance t w nx).unlocks u =
      s.unlocks u + if u = t then nx.gains.2 else 0 := by
    cases nx with
    | goto _ | sleep => rw [Next.gains, ite_self]; exact unlocks_of_log_eq rfl u
    | ret op r => exact unlocks_of_log_cons rfl u
  have hu := h u
  rw [hlocks, hunlocks, advance_pc]
  split
  · next he =>
      subst he
      omega
  · next he =>
      rw [hother u he]
      exact hu

end Books

end Pisces.Mutex
