import Pisces.Mutex.Calls

/-!
# What an owner's calls come to

The invariant of a recursive or errorcheck mutex says what a call may answer
when it returns. That the owner's calls do return is a matter of its own: no
other thread can take the mutex from it, but each of them can mark the word
and so make its compare-and-exchange fail. A thread that fails reloads, and so
an owner that runs for itself is through after four steps, whatever copy of
the word it has. EDEADLK and EAGAIN take a single step.
-/

namespace Pisces.Mutex

open Pisces.Lib OwnedLock

variable {τ : Type}

/-! ## Sleepers -/

/-- Who is asleep is at a futex wait, and is asleep once. -/
structure Sleepers (s : State τ) : Prop where
  nodup : s.queue.Nodup
  waits : ∀ u ∈ s.queue, (s.pc u).afterWait ≠ none

/-- Nobody falls asleep at a first read. -/
theorem dispatch_ne_sleep (op : Op) (tid w : Word) : dispatch op tid w ≠ .sleep := by
  unfold dispatch recursiveIncrement
  cases op <;> simp only [] <;> (repeat' split) <;> exact Next.noConfusion

theorem Pc.afterWait_of_sleep {pc : Pc} {tid w w' : Word}
    (hst : pc.step tid w = some (w', .sleep)) : pc.afterWait ≠ none := by
  cases pc with
  | nWait _ _ | wait _ _ _ => exact Option.some_ne_none _
  | idle | nWake _ | wake _ => cases hst
  | enter op =>
      rw [Pc.step, Option.some.injEq, Prod.mk.injEq] at hst
      exact absurd hst.2 (dispatch_ne_sleep op tid w)
  | reload _ _ | incrReload _ | decReload | flipReload _ | acquireClock _ | nClock _ | nStore _ =>
      cases hst
  | nSwap _ _ | nDec _ | clock _ _ | swap _ _ =>
      rw [Pc.step, Option.some.injEq, Prod.mk.injEq] at hst
      obtain ⟨-, hst⟩ := hst
      repeat' split at hst
      all_goals cases hst
  | _ =>
      rcases bionicCmpxchg_cases (Option.some.inj hst) with ⟨-, -, hnx⟩ | ⟨-, -, hnx⟩
      all_goals
        repeat' split at hnx
        all_goals cases hnx

section Sleepers

variable {cfg : Config τ} {s s' : State τ} {t : τ}

theorem Sleepers.awake (h : Sleepers s) (hpc : (s.pc t).afterWait = none) : t ∉ s.queue :=
  fun hq => h.waits t hq hpc

/-- A thread that is awake moves. -/
theorem Sleepers.move (h : Sleepers s) (hq : t ∉ s.queue) (hqueue : s'.queue = s.queue)
    (hpc : ∀ u, u ≠ t → s'.pc u = s.pc u) : Sleepers s' where
  nodup := by rw [hqueue]; exact h.nodup
  waits u hu := by
    rw [hqueue] at hu
    have hne : u ≠ t := by
      rintro rfl
      exact hq hu
    rw [hpc u hne]
    exact h.waits u hu

variable [DecidableEq τ]

theorem Sleepers.resume (h : Sleepers s) (u : τ) (pc : Pc) : Sleepers (s.resume u pc) where
  nodup := h.nodup.erase u
  waits v hv := by
    obtain ⟨hne, hv⟩ := h.nodup.mem_erase_iff.mp hv
    rw [resume_pc, if_neg hne]
    exact h.waits v hv

theorem Sleepers.ret (h : Sleepers s) (hq : t ∉ s.queue) (op : Op) (r : Ret) :
    Sleepers (s.ret t op r) :=
  h.move hq rfl fun u hu => by rw [ret_pc, if_neg hu]

theorem Sleepers.fires (h : Sleepers s) {e : Event τ} (hf : Fires cfg s e s') : Sleepers s' := by
  have hwakes : ∀ {t sh}, (s.pc t).wakesShared = some sh → t ∉ s.queue := by
    intro t sh hsh
    refine h.awake ?_
    cases hpc : s.pc t <;> rw [hpc] at hsh <;> first | rfl | cases hsh
  have hgone : ∀ {v t pc}, t ∉ s.queue → t ∉ (s.resume v pc).queue :=
    fun hq hmem => hq (List.mem_of_mem_erase hmem)
  cases hf with
  | @call t op hpc =>
      refine h.move (h.awake (by rw [hpc]; rfl)) rfl fun u hu => ?_
      rw [setPc_pc, if_neg hu]
  | @step t w nx hq hst =>
      by_cases hsleep : nx = .sleep
      · subst hsleep
        refine ⟨List.nodup_cons.mpr ⟨hq, h.nodup⟩, fun u hu => ?_⟩
        rcases List.mem_cons.mp hu with rfl | hu
        · exact Pc.afterWait_of_sleep hst
        · exact h.waits u hu
      · refine h.move hq ?_ fun u hu => ?_
        · rw [advance_queue, if_neg hsleep]
        · rw [advance_pc, if_neg hu]
  | expire hq _ => exact h.ret hq _ _
  | wakeNone hsh _ => exact h.ret (hwakes hsh) _ _
  | wakeSome hsh _ _ _ => exact (h.resume _ _).ret (hgone (hwakes hsh)) _ _
  | interrupt _ _ | timeout _ _ => exact h.resume _ _
  | timeoutBusy _ _ => exact (h.resume _ _).ret h.nodup.not_mem_erase _ _

theorem sleepers_reachable {ty : MutexType} {pshared : Bool} {ok : State τ → Event τ → Prop}
    {es : List (Event τ)} (hrun : Run (step cfg) ok (Mutex.init ty pshared) es s) : Sleepers s :=
  hrun.invariant (I := Sleepers) ⟨List.nodup_nil, fun _ hu => absurd hu List.not_mem_nil⟩
    fun _ _ _ h _ hs => h.fires (step_fires hs)

end Sleepers

/-! ## Running alone -/

/-- From the word `w` a thread at `pc` that runs alone returns from `op` with `r` in
`n` steps. -/
inductive Returns (tid : Word) : ℕ → Word → Pc → Op → Ret → Prop
  | ret {w w' : Word} {pc : Pc} {op : Op} {r : Ret} :
      pc.step tid w = some (w', .ret op r) → Returns tid 1 w pc op r
  | goto {n : ℕ} {w w' : Word} {pc pc' : Pc} {op : Op} {r : Ret} :
      pc.step tid w = some (w', .goto pc') → Returns tid n w' pc' op r →
      Returns tid (n + 1) w pc op r

/-- The same for the whole state. -/
theorem Returns.run [DecidableEq τ] {cfg : Config τ} {s : State τ} {t : τ} {n : ℕ} {w : Word}
    {pc : Pc} {op : Op} {r : Ret} (h : Returns (cfg.tid t) n w pc op r) (hw : s.word = w)
    (hpc : s.pc t = pc) (hq : t ∉ s.queue) :
    ∃ s', runEvents (step cfg) s (List.replicate n (.step t)) = some s' ∧
      s'.log = (t, op, r) :: s.log := by
  induction h generalizing s with
  | @ret w w' pc op r hst =>
      refine ⟨s.advance t w' (.ret op r), ?_, rfl⟩
      rw [← hpc, ← hw] at hst
      simp [runEvents, step, hq, hst]
  | @goto n w w' pc pc' op r hst _ ih =>
      rw [← hpc, ← hw] at hst
      have hpc' : (s.advance t w' (.goto pc')).pc t = pc' := by
        rw [advance_pc, if_pos rfl]
        rfl
      obtain ⟨s', hrun, hlog⟩ := ih (s := s.advance t w' (.goto pc')) rfl hpc' hq
      refine ⟨s', ?_, hlog⟩
      rw [List.replicate_succ, runEvents]
      simp only [step, if_neg hq, hst, Option.map_some, Option.bind_some]
      exact hrun

section Owner

variable {tid w mvalue : Word} {op : Op}

/-- The compare-and-exchange of an owner succeeds, if not with the copy it has, then
with the next one. -/
theorem returns_incr : ∃ n ≤ 3, Returns tid n w (.incr op mvalue) op .ok := by
  have hnew : ∀ {v : Word}, Returns tid 1 v (.incr op v) op .ok :=
    .ret (by rw [Pc.step, bionicCmpxchg, if_pos rfl])
  by_cases hw : w = mvalue
  · subst hw
    exact ⟨1, by decide, hnew⟩
  · have hload : (Pc.incrReload op).step tid w = some (w, .goto (.incr op w)) := rfl
    refine ⟨3, le_rfl, .goto ?_ (.goto hload hnew)⟩
    rw [Pc.step, bionicCmpxchg, if_neg hw]

theorem returns_dec : ∃ n ≤ 3, Returns tid n w (.dec mvalue) .unlock .ok := by
  have hnew : ∀ {v : Word}, Returns tid 1 v (.dec v) .unlock .ok :=
    .ret (by rw [Pc.step, bionicCmpxchg, if_pos rfl])
  by_cases hw : w = mvalue
  · subst hw
    exact ⟨1, by decide, hnew⟩
  · have hload : Pc.decReload.step tid w = some (w, .goto (.dec w)) := rfl
    refine ⟨3, le_rfl, .goto ?_ (.goto hload hnew)⟩
    rw [Pc.step, bionicCmpxchg, if_neg hw]

variable {cfg : Config τ} {ty : MutexType} {pshared : Bool} {t : τ}

/-- The first read of an owner. -/
theorem owner_dispatch (op : Op) (ht : cfg.TidsOk) (hty : ty ≠ .normal) {c : Fin 2048}
    (hd : Decodes cfg ty pshared w (.held t c)) :
    dispatch op (cfg.tid t) w =
      if op = .unlock then
        if mutexCounterBitsIsZero w then
          .goto (.swap ((w &&& mutexTypeMask) ||| (w &&& mutexSharedMask) |||
            mutexStateBitsUnlocked) (w &&& mutexSharedMask))
        else .goto (.dec w)
      else recursiveIncrement op w (w &&& mutexTypeMask) := by
  have hnn : ¬ w &&& mutexTypeMask = mutexTypeBits .normal := by
    rw [hd.type_bits ht]
    cases ty with
    | normal => exact absurd rfl hty
    | recursive | errorcheck => decide
  have howner : cfg.tid t = mutexOwnerFromBits w := (hd.owner_iff ht t).mpr (ownedBy_held.mpr rfl)
  simp only [dispatch, if_neg hnn, if_pos howner]
  cases op with
  | lock | trylock | lockTimeoutNp => rfl
  | unlock =>
      simp only [ne_eq, howner, not_true_eq_false, if_false, if_true]
      cases mutexCounterBitsIsZero w <;> rfl

/-- The three things `_recursive_increment` can come to. -/
theorem owner_increment (ht : cfg.TidsOk) {c : Fin 2048}
    (hd : Decodes cfg ty pshared w (.held t c)) :
    (ty = .errorcheck → recursiveIncrement op w (w &&& mutexTypeMask) = .ret op .edeadlk) ∧
    (ty = .recursive → c.val = 2047 →
      recursiveIncrement op w (w &&& mutexTypeMask) = .ret op .eagain) ∧
    (ty = .recursive → c.val < 2047 →
      recursiveIncrement op w (w &&& mutexTypeMask) = .goto (.incr op w)) := by
  have hne : mutexTypeBits .recursive ≠ mutexTypeBits .errorcheck := by decide
  have hcnt := hd.counter_bits ht
  rw [recursiveIncrement, hd.type_bits ht]
  refine ⟨?_, ?_, ?_⟩
  · rintro rfl
    exact if_pos rfl
  · rintro rfl hc
    have hover : mutexCounterBitsWillOverflow w = true := by
      rw [counterWillOverflow_iff, hcnt, hc]
    rw [if_neg hne, if_pos hover]
  · rintro rfl hc
    have hover : ¬ mutexCounterBitsWillOverflow w = true := by
      rw [counterWillOverflow_iff, hcnt]
      omega
    rw [if_neg hne, if_neg hover]

end Owner

theorem OwnedLock.Result.unlocked {ty : MutexType} {t : τ} {a a' : OwnedLock τ}
    (h : Result ty t a .unlock .ok a') : a'.depth + 1 = a.depth ∧ (a' = .free ∨ a'.OwnedBy t) := by
  cases h with
  | acquire hop | relock _ hop _ => exact absurd rfl hop
  | unnest _ => exact ⟨rfl, .inr ⟨_, rfl⟩⟩
  | release => exact ⟨rfl, .inl rfl⟩

section Alone

variable [DecidableEq τ] {cfg : Config τ} {ty : MutexType} {pshared : Bool} {s s' : State τ}
  {a : OwnedLock τ} {t : τ} {n : ℕ} {w : Word} {pc pc' : Pc} {op : Op} {r : Ret}

/-- A step with which a thread goes on, unless it gives the mutex back. -/
theorem RecInv.goto (ht : cfg.TidsOk) (hty : ty ≠ .normal) (h : RecInv cfg ty pshared s a)
    (hst : (s.pc t).step (cfg.tid t) s.word = some (w, .goto pc')) (hne : ∀ sh, pc' ≠ .wake sh) :
    RecInv cfg ty pshared (s.advance t w (.goto pc')) a := by
  obtain ⟨a', h', hseen⟩ := h.advance ht hty hst
  cases hseen with
  | goto _ => exact h'
  | released _ => exact absurd rfl (hne _)

/-- A thread that runs alone to its return does what its result says. -/
theorem RecInv.returns (ht : cfg.TidsOk) (hty : ty ≠ .normal) (h : RecInv cfg ty pshared s a)
    (hret : Returns (cfg.tid t) n w pc op r) (hw : s.word = w) (hpc : s.pc t = pc)
    (hq : t ∉ s.queue) :
    ∃ s' a', runEvents (step cfg) s (List.replicate n (.step t)) = some s' ∧
      s'.log = (t, op, r) :: s.log ∧ RecInv cfg ty pshared s' a' ∧ Result ty t a op r a' := by
  induction hret generalizing s with
  | @ret w w' pc op r hst =>
      rw [← hpc, ← hw] at hst
      obtain ⟨a', h', hseen⟩ := h.advance ht hty hst
      cases hseen with
      | ret hr =>
          refine ⟨_, a', ?_, rfl, h', hr⟩
          simp [runEvents, step, hq, hst]
  | @goto n w w' pc pc' op r hst hrest ih =>
      rw [← hpc, ← hw] at hst
      have hne : ∀ sh, pc' ≠ .wake sh := by
        rintro sh rfl
        cases hrest with
        | ret hst' | goto hst' _ => cases hst'
      have hpc' : (s.advance t w' (.goto pc')).pc t = pc' := by
        rw [advance_pc, if_pos rfl]
        rfl
      obtain ⟨s', a', hrun, hlog, h', hr⟩ :=
        ih (s := s.advance t w' (.goto pc')) (h.goto ht hty hst hne) rfl hpc' hq
      refine ⟨s', a', ?_, hlog, h', hr⟩
      rw [List.replicate_succ, runEvents]
      simp only [step, if_neg hq, hst, Option.map_some, Option.bind_some]
      exact hrun

/-- The mutex has been unlocked once, by a call that has returned or has only its futex wake
still to make. -/
structure UnlockedOnce (cfg : Config τ) (ty : MutexType) (pshared : Bool) (s : State τ)
    (a : OwnedLock τ) (t : τ) (s' : State τ) : Prop where
  view : ∃ a', OwnedView cfg ty pshared s' a' ∧ a'.depth + 1 = a.depth ∧
    (a' = .free ∨ a'.OwnedBy t)
  ends : s'.log = (t, .unlock, .ok) :: s.log ∨ s'.log = s.log ∧ ∃ sh, s'.pc t = .wake sh

/-- The exchange that gives the mutex back. -/
theorem RecInv.swap_unlocks (ht : cfg.TidsOk) (hty : ty ≠ .normal)
    (h : RecInv cfg ty pshared s a) (hq : t ∉ s.queue) {nv sh : Word}
    (hpc : s.pc t = .swap nv sh) :
    ∃ s', step cfg s (.step t) = some s' ∧ UnlockedOnce cfg ty pshared s a t s' := by
  have hst : (s.pc t).step (cfg.tid t) s.word = some (nv,
      if mutexStateBitsIsLockedContended s.word then .goto (.wake sh) else .ret .unlock .ok) := by
    rw [hpc]
    rfl
  have hs : ∀ {nx}, (s.pc t).step (cfg.tid t) s.word = some (nv, nx) →
      step cfg s (.step t) = some (s.advance t nv nx) := by
    intro nx hst
    simp only [step, if_neg hq, hst, Option.map_some]
  split at hst
  · obtain ⟨a', h', hseen⟩ := h.advance ht hty hst
    refine ⟨_, hs hst, ⟨a', h'.view ht, ?_⟩, .inr ⟨rfl, sh, ?_⟩⟩
    · cases hseen with
      | goto hne => exact absurd rfl (hne sh)
      | released ha => subst ha; exact ⟨rfl, .inl rfl⟩
    · rw [advance_pc, if_pos rfl]
      rfl
  · obtain ⟨a', h', hseen⟩ := h.advance ht hty hst
    cases hseen with
    | ret hr => exact ⟨_, hs hst, ⟨a', h'.view ht, hr.unlocked⟩, .inl rfl⟩

theorem RecInv.returns_unlock (ht : cfg.TidsOk) (hty : ty ≠ .normal)
    (h : RecInv cfg ty pshared s a) (hret : Returns (cfg.tid t) n s.word (s.pc t) .unlock .ok)
    (hq : t ∉ s.queue) :
    ∃ s', runEvents (step cfg) s (List.replicate n (.step t)) = some s' ∧
      UnlockedOnce cfg ty pshared s a t s' := by
  obtain ⟨s', a', hrun, hlog, h', hr⟩ := h.returns ht hty hret rfl rfl hq
  exact ⟨s', hrun, ⟨a', h'.view ht, hr.unlocked⟩, .inl hlog⟩

/-! ## The calls of an owner -/

/-- What the owner gets, running alone from where it is: EDEADLK from an errorcheck mutex and
EAGAIN at depth 2048, both at its first step, else the mutex once more; and each `unlock`
takes one off the depth. -/
structure OwnerServed (cfg : Config τ) (ty : MutexType) (pshared : Bool) (s : State τ)
    (a : OwnedLock τ) (t : τ) : Prop where
  deadlock : ∀ op, op ≠ .unlock → s.pc t = .enter op → ty = .errorcheck →
    ∃ s', step cfg s (.step t) = some s' ∧ s'.word = s.word ∧
      s'.log = (t, op, .edeadlk) :: s.log
  overflow : ∀ op, op ≠ .unlock → s.pc t = .enter op → ty = .recursive → a.depth = 2048 →
    ∃ s', step cfg s (.step t) = some s' ∧ s'.word = s.word ∧
      s'.log = (t, op, .eagain) :: s.log
  relock : ∀ op, op ≠ .unlock → (s.pc t).op = some op → ty = .recursive → a.depth < 2048 →
    ∃ n ≤ 4, ∃ s' a', runEvents (step cfg) s (List.replicate n (.step t)) = some s' ∧
      s'.log = (t, op, .ok) :: s.log ∧ OwnedView cfg ty pshared s' a' ∧ a'.OwnedBy t ∧
      a'.depth = a.depth + 1
  unlock : (s.pc t).op = some .unlock →
    ∃ n ≤ 4, ∃ s', runEvents (step cfg) s (List.replicate n (.step t)) = some s' ∧
      UnlockedOnce cfg ty pshared s a t s'

variable {c : Fin 2048}

theorem RecInv.owner_enters (ht : cfg.TidsOk) (hty : ty ≠ .normal)
    (h : RecInv cfg ty pshared s (.held t c)) (hop : op ≠ .unlock) (hpc : s.pc t = .enter op) :
    (s.pc t).step (cfg.tid t) s.word =
      some (s.word, recursiveIncrement op s.word (s.word &&& mutexTypeMask)) := by
  have hdisp := owner_dispatch op ht hty h.decodes
  rw [if_neg hop] at hdisp
  rw [hpc, ← hdisp]
  rfl

/-- An owner inside an acquire is in `_recursive_increment` or before it. -/
theorem RecInv.owner_relocks (ht : cfg.TidsOk) (h : RecInv cfg .recursive pshared s (.held t c))
    (hop : op ≠ .unlock) (hin : (s.pc t).op = some op) (hc : c.val < 2047) :
    ∃ n ≤ 4, Returns (cfg.tid t) n s.word (s.pc t) op .ok := by
  have hown : (OwnedLock.held t c).OwnedBy t := ownedBy_held.mpr rfl
  have hl := h.locals t
  cases hpc : s.pc t with
  | enter op' =>
      rw [hpc] at hin
      obtain rfl := Option.some.inj hin
      have hst := h.owner_enters ht (by decide) hop hpc
      rw [(owner_increment ht h.decodes).2.2 rfl hc, hpc] at hst
      obtain ⟨n, hn, hret⟩ := @returns_incr (cfg.tid t) s.word s.word op'
      exact ⟨n + 1, by omega, .goto hst hret⟩
  | incr op' mv =>
      rw [hpc] at hin
      obtain rfl := Option.some.inj hin
      obtain ⟨n, hn, hret⟩ := @returns_incr (cfg.tid t) s.word mv op'
      exact ⟨n, by omega, hret⟩
  | incrReload op' =>
      rw [hpc] at hin
      obtain rfl := Option.some.inj hin
      obtain ⟨n, hn, hret⟩ := @returns_incr (cfg.tid t) s.word s.word op'
      exact ⟨n + 1, by omega, .goto rfl hret⟩
  | idle =>
      rw [hpc] at hin
      cases hin
  | dec _ | decReload | swap _ _ | wake _ =>
      rw [hpc] at hin
      exact absurd (Option.some.inj hin).symm hop
  | quick _ _ | reload _ _ | acquire _ _ =>
      rw [hpc] at hl
      exact absurd hown hl.2.2
  | flip _ _ _ | wait _ _ _ =>
      rw [hpc] at hl
      exact absurd hown hl.2.1.2
  | acquireClock _ | flipReload _ | clock _ _ | tryAcquire _ =>
      rw [hpc] at hl
      exact absurd hown hl.2
  | _ =>
      rw [hpc] at hl
      exact hl.elim

/-- An owner inside `unlock`. -/
theorem RecInv.owner_unlocks (ht : cfg.TidsOk) (hty : ty ≠ .normal)
    (h : RecInv cfg ty pshared s (.held t c)) (hq : t ∉ s.queue)
    (hin : (s.pc t).op = some .unlock) :
    ∃ n ≤ 4, ∃ s', runEvents (step cfg) s (List.replicate n (.step t)) = some s' ∧
      UnlockedOnce cfg ty pshared s (.held t c) t s' := by
  have hl := h.locals t
  have hreturns : ∀ n, n ≤ 4 → Returns (cfg.tid t) n s.word (s.pc t) .unlock .ok →
      ∃ n ≤ 4, ∃ s', runEvents (step cfg) s (List.replicate n (.step t)) = some s' ∧
        UnlockedOnce cfg ty pshared s (.held t c) t s' :=
    fun n hn hret => ⟨n, hn, h.returns_unlock ht hty hret hq⟩
  cases hpc : s.pc t with
  | enter op' =>
      rw [hpc] at hin
      obtain rfl := Option.some.inj hin
      have hst : (s.pc t).step (cfg.tid t) s.word =
          some (s.word, dispatch .unlock (cfg.tid t) s.word) := by
        rw [hpc]
        rfl
      rw [owner_dispatch .unlock ht hty h.decodes, if_pos rfl] at hst
      split at hst
      · -- the last one: the mutex is given back
        have h₁ := h.goto ht hty hst (by simp)
        obtain ⟨s', hs', hdone⟩ := h₁.swap_unlocks ht hty hq (by rw [advance_pc, if_pos rfl]; rfl)
        refine ⟨2, by decide, s', ?_, hdone.view, hdone.ends⟩
        simp only [List.replicate, runEvents, step, if_neg hq, hst, Option.map_some,
          Option.bind_some]
        simp only [step] at hs'
        rw [hs', Option.bind_some]
      · obtain ⟨n, hn, hret⟩ := @returns_dec (cfg.tid t) s.word s.word
        exact hreturns (n + 1) (by omega) (.goto hst hret)
  | dec mv =>
      obtain ⟨n, hn, hret⟩ := @returns_dec (cfg.tid t) s.word mv
      exact hreturns n (by omega) (by rw [hpc]; exact hret)
  | decReload =>
      obtain ⟨n, hn, hret⟩ := @returns_dec (cfg.tid t) s.word s.word
      exact hreturns (n + 1) (by omega) (by rw [hpc]; exact .goto rfl hret)
  | swap nv sh =>
      obtain ⟨s', hs', hdone⟩ := h.swap_unlocks ht hty hq hpc
      refine ⟨1, by decide, s', ?_, hdone⟩
      simp only [List.replicate, runEvents, hs', Option.bind_some]
  | wake sh =>
      rw [hpc] at hl
      exact absurd (ownedBy_held.mpr rfl) hl.1
  | incr _ _ | incrReload _ | quick _ _ | reload _ _ | acquire _ _ | flip _ _ _ | wait _ _ _ =>
      rw [hpc] at hin hl
      exact absurd (Option.some.inj hin) hl.1
  | idle | acquireClock _ | flipReload _ | clock _ _ | tryAcquire _ =>
      rw [hpc] at hin
      cases hin
  | _ =>
      rw [hpc] at hl
      exact hl.elim

theorem RecInv.ownerServed (ht : cfg.TidsOk) (hty : ty ≠ .normal)
    (h : RecInv cfg ty pshared s a) (hsleep : Sleepers s) (ho : a.OwnedBy t) :
    OwnerServed cfg ty pshared s a t := by
  obtain ⟨c, rfl⟩ := ho
  have hown : (OwnedLock.held t c).OwnedBy t := ownedBy_held.mpr rfl
  have hq : t ∉ s.queue := by
    refine hsleep.awake ?_
    cases haw : (s.pc t).afterWait with
    | none => rfl
    | some pc =>
        obtain ⟨op, m, mv, hwait, -⟩ := (h.locals t).of_afterWait haw
        have hl := h.locals t
        rw [hwait] at hl
        exact absurd hown hl.2.1.2
  have hstep : ∀ {op r}, op ≠ .unlock → s.pc t = .enter op →
      recursiveIncrement op s.word (s.word &&& mutexTypeMask) = .ret op r →
      ∃ s', step cfg s (.step t) = some s' ∧ s'.word = s.word ∧ s'.log = (t, op, r) :: s.log := by
    intro op r hop hpc hret
    have hst := h.owner_enters ht hty hop hpc
    rw [hret] at hst
    exact ⟨s.advance t s.word (.ret op r), by simp only [step, if_neg hq, hst, Option.map_some],
      rfl, rfl⟩
  refine ⟨fun op hop hpc hec => hstep hop hpc ((owner_increment ht h.decodes).1 hec), ?_, ?_,
    h.owner_unlocks ht hty hq⟩
  · intro op hop hpc hrec hdepth
    refine hstep hop hpc ((owner_increment ht h.decodes).2.1 hrec ?_)
    rw [depth] at hdepth
    omega
  · rintro op hop hin rfl hdepth
    rw [depth] at hdepth
    obtain ⟨n, hn, hret⟩ := h.owner_relocks ht hop hin (by omega)
    obtain ⟨s', a', hrun, hlog, h', hr⟩ := h.returns ht hty hret rfl rfl hq
    refine ⟨n, hn, s', a', hrun, hlog, h'.view ht, ?_⟩
    rcases hr.of_owner hop hown with ⟨-, -, ho', hd'⟩ | ⟨hno, -⟩ | ⟨hno, -⟩
    · exact ⟨ho', hd'⟩
    · cases hno
    · cases hno

/-- An `unlock` by a thread that does not own the mutex fails at once. -/
theorem RecInv.unlock_fails (ht : cfg.TidsOk) (hty : ty ≠ .normal) (h : RecInv cfg ty pshared s a)
    (hsleep : Sleepers s) (hno : ¬ a.OwnedBy t) (hpc : s.pc t = .enter .unlock) :
    ∃ s', step cfg s (.step t) = some s' ∧ s'.word = s.word ∧
      s'.log = (t, .unlock, .eperm) :: s.log := by
  have hq : t ∉ s.queue := hsleep.awake (by rw [hpc]; rfl)
  have hs : step cfg s (.step t) =
      some (s.advance t s.word (dispatch .unlock (cfg.tid t) s.word)) := by
    simp only [step, if_neg hq, hpc, Pc.step, Option.map_some]
  exact ⟨_, hs, h.unlock_notOwner ht hty hno hpc hs⟩

/-! ## The refinement -/

/-- Recursive and errorcheck mutexes refine the owned lock. In every state of
every run the word decodes to exactly one abstract lock, whose depth is what
the owner's returned calls add up to; every event is then a step of that
lock, in which only the actor's ownership can change. Whatever the others have
done to the word by then, the owner's own calls return when it runs alone, and
an `unlock` by anybody else is refused. -/
theorem mutex_refines_ownedLock (ht : cfg.TidsOk) (hty : ty ≠ .normal) {es : List (Event τ)}
    (hrun : Run (step cfg) always (Mutex.init ty pshared) es s) :
    ∃ a, OwnedView cfg ty pshared s a ∧
      (∀ e s', step cfg s e = some s' →
        ∃ a', OwnedView cfg ty pshared s' a' ∧ AbsStep ty s s' a a' ∧
          OnlyBy e.actor a a' ∧
          ∀ t op r, s'.log = (t, op, r) :: s.log → op ≠ .unlock → a.OwnedBy t →
            (r = .ok ∧ ty = .recursive ∧ a'.OwnedBy t ∧ a'.depth = a.depth + 1) ∨
            (r = .eagain ∧ ty = .recursive ∧ a.depth = 2048 ∧ a' = a) ∨
            (r = .edeadlk ∧ ty = .errorcheck ∧ a' = a)) ∧
      (∀ t, a.OwnedBy t → OwnerServed cfg ty pshared s a t) ∧
      ∀ t, ¬ a.OwnedBy t → s.pc t = .enter .unlock →
        ∃ s', step cfg s (.step t) = some s' ∧ s'.word = s.word ∧
          s'.log = (t, .unlock, .eperm) :: s.log := by
  obtain ⟨a, hinv⟩ := recInv_reachable ht hty hrun
  have hsleep : Sleepers s := sleepers_reachable hrun
  refine ⟨a, hinv.view ht, ?_, fun t ho => hinv.ownerServed ht hty hsleep ho,
    fun t hno hpc => hinv.unlock_fails ht hty hsleep hno hpc⟩
  intro e s' hs
  obtain ⟨a', hinv', habs, honly⟩ := fires_refines ht hty hinv (step_fires hs)
  refine ⟨a', hinv'.view ht, habs, honly, ?_⟩
  intro t op r hlog hop ho
  cases habs with
  | quiet hl _ | released hl _ _ _ =>
      rw [hl] at hlog
      exact absurd (congrArg List.length hlog) (by simp)
  | woke _ hl _ =>
      rw [hl] at hlog
      injection hlog with hhd _
      injection hhd with _ hhd
      injection hhd with hop' _
      exact absurd hop'.symm hop
  | result hl hr =>
      rw [hl] at hlog
      injection hlog with hhd _
      injection hhd with ht' hhd
      injection hhd with hop' hr'
      subst ht' hop' hr'
      exact hr.of_owner hop ho

end Alone

/-- The first thread locks a shared recursive mutex; the second one has its
`unlock` refused, then marks the mutex contended and sleeps. The owner locks
it once more. -/
def relockEvents : List (Event (Fin 2)) :=
  [.call 0 .lock, .step 0, .step 0, .call 1 .unlock, .step 1,
    .call 1 .lock, .step 1, .step 1, .step 1, .call 0 .lock, .step 0, .step 0]

/-- The end of that run: held by tid 1 with counter 1 and state 2. The owner
unlocks it once. On an errorcheck mutex the second lock is answered EDEADLK. -/
theorem mutex_refines_ownedLock_relock :
    (∃ s s', Run (step twoThreads) always (Mutex.init .recursive true)
        (relockEvents ++ [.call 0 .unlock]) s ∧
      s.word = 0x00016006#32 ∧ s.queue = [1] ∧
      s.log = [(0, .lock, .ok), (1, .unlock, .eperm), (0, .lock, .ok)] ∧
      UnlockedOnce twoThreads .recursive true s (.held 0 1) 0 s') ∧
    ∃ s s', Run (step twoThreads) always (Mutex.init .errorcheck false)
        [.call 0 .lock, .step 0, .step 0, .call 0 .trylock] s ∧
      step twoThreads s (.step 0) = some s' ∧ s'.word = s.word ∧
      s'.log = [(0, .trylock, .edeadlk), (0, .lock, .ok)] := by
  constructor
  · have hsome : (runEvents (step twoThreads) (Mutex.init .recursive true)
        (relockEvents ++ [.call 0 .unlock])).isSome := by decide
    have hrun : Run (step twoThreads) always (Mutex.init .recursive true)
        (relockEvents ++ [.call 0 .unlock]) _ :=
      Run.of_runEvents (fun _ _ _ => trivial) (Option.some_get hsome).symm
    obtain ⟨a, hview, -, hserved, -⟩ :=
      mutex_refines_ownedLock twoThreads_tidsOk (by decide) hrun
    obtain rfl : .held 0 1 = a := hview.unique (.held 0 1) (.inr rfl)
    obtain ⟨n, -, s', -, hdone⟩ := (hserved 0 ⟨1, rfl⟩).unlock rfl
    exact ⟨_, s', hrun, rfl, rfl, rfl, hdone⟩
  · have hsome : (runEvents (step twoThreads) (Mutex.init .errorcheck false)
        [.call 0 .lock, .step 0, .step 0, .call 0 .trylock]).isSome := by decide
    have hrun : Run (step twoThreads) always (Mutex.init .errorcheck false)
        [.call 0 .lock, .step 0, .step 0, .call 0 .trylock] _ :=
      Run.of_runEvents (fun _ _ _ => trivial) (Option.some_get hsome).symm
    obtain ⟨a, hview, -, hserved, -⟩ :=
      mutex_refines_ownedLock twoThreads_tidsOk (by decide) hrun
    obtain rfl : .held 0 0 = a := hview.unique (.held 0 0) (.inl rfl)
    obtain ⟨s', hs, hw, hlog⟩ :=
      (hserved 0 ⟨0, rfl⟩).deadlock .trylock (by decide) rfl rfl
    exact ⟨_, s', hrun, hs, hw, hlog⟩

end Pisces.Mutex
