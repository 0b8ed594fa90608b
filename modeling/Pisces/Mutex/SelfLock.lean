import Pisces.Mutex.Hold
import Pisces.Mutex.Stage
import Pisces.Mutex.Wakeup

/-!
# Normal mutexes: the one dead end

A normal mutex does not know who holds it, so a holder that locks it again waits for
itself. That is the only way to get stuck: in every other state of a run in which
only the holder unlocks, the holder can finish its call and unlock, and the rest can
have the mutex one after the other (`normal_served_iff`). A holder inside its own
`lock` stays there for ever, whatever the others, the clock and the kernel do; one
inside its own `lock_timeout_np` needs the clock to get out.
-/

namespace Pisces.Mutex

open Pisces.Lib

variable {τ : Type} [DecidableEq τ] {cfg : Config τ} {pshared : Bool} {s s' : State τ}
  {st : NState} {h : Option τ} {t u : τ} {op : Op} {r : Ret} {e : Event τ}

/-- The thread holds the mutex and asks for it with a call that waits. -/
def WaitsForItself (s : State τ) (t : τ) : Prop :=
  Holds s t ∧ ((s.pc t).op = some .lock ∨ (s.pc t).op = some .lockTimeoutNp)

/-- `trylock` is never in the loop that waits. -/
def Pc.WaitsOk : Pc → Prop
  | .nLock op _ | .nSwap op _ | .nWait op _ => op = .lock ∨ op = .lockTimeoutNp
  | _ => True

omit [DecidableEq τ] in
theorem nstep_waitsOk {pc : Pc} {tid w' : Word} {nx : Next} (hl : NLocalOk pshared h t pc)
    (hw : pc.WaitsOk) (hs : pc.step tid (st.word pshared) = some (w', nx)) :
    (nx.pc pc).WaitsOk := by
  cases pc with
  | idle | nWake _ => cases hs
  | enter op =>
      obtain ⟨-, rfl⟩ := Prod.mk.inj (Option.some.inj hs)
      simp only [dispatch, NState.word_type, if_true]
      cases op with
      | lock => exact .inl rfl
      | lockTimeoutNp => exact .inr rfl
      | trylock | unlock => trivial
  | nLock op sh | nTry sh =>
      rcases bionicCmpxchg_cases (Option.some.inj hs) with ⟨-, -, rfl⟩ | ⟨-, -, rfl⟩
      · trivial
      · exact hw
  | nSwap op sh =>
      obtain ⟨-, rfl⟩ := Prod.mk.inj (Option.some.inj hs)
      split
      · trivial
      · split
        · trivial
        · exact hw
  | nClock sh =>
      obtain ⟨-, rfl⟩ := Prod.mk.inj (Option.some.inj hs)
      exact .inr rfl
  | nWait op sh =>
      obtain ⟨-, rfl⟩ := Prod.mk.inj (Option.some.inj hs)
      split <;> exact hw
  | nDec sh =>
      obtain ⟨-, rfl⟩ := Prod.mk.inj (Option.some.inj hs)
      split <;> trivial
  | nStore sh =>
      obtain ⟨-, rfl⟩ := Prod.mk.inj (Option.some.inj hs)
      trivial
  | _ => exact hl.elim

theorem NormInv.waitsOk (hinv : NormInv pshared s st h) (hw : ∀ u, (s.pc u).WaitsOk)
    (hf : Fires cfg s e s') (u : τ) : (s'.pc u).WaitsOk := by
  by_cases hown : ∃ t, e = .step t
  · obtain ⟨t, rfl⟩ := hown
    cases hf with
    | @step _ w nx hq hst =>
        rw [advance_pc]
        split
        · exact nstep_waitsOk (hinv.locals t) (hw t) (hinv.word ▸ hst)
        · exact hw u
  · rcases (hf.moves fun t ht => hown ⟨t, ht⟩).2 u with heq | hidle | ⟨op, -, henter⟩ | haw
    · rw [heq]
      exact hw u
    · rw [hidle]
      trivial
    · rw [henter]
      trivial
    · obtain ⟨op, -, hwait, hswap⟩ := (hinv.locals u).of_afterWait haw
      have hop := hw u
      rw [hwait] at hop
      rw [hswap]
      exact hop

/-- The invariants of a run in which only the holder unlocks. -/
structure NServing (pshared : Bool) (s : State τ) : Prop where
  inv : ∃ st h, NormInv pshared s st h
  sleep : SleepInv (normalDiscipline pshared) s
  waits : ∀ u, (s.pc u).WaitsOk

theorem NServing.step (hS : NServing pshared s) (hok : HolderUnlocks s e)
    (hs : Mutex.step cfg s e = some s') : NServing pshared s' := by
  obtain ⟨st, h, hinv⟩ := hS.inv
  have hf := step_fires hs
  obtain ⟨st', h', hinv', -⟩ := hinv.fires hok hf
  refine ⟨⟨st', h', hinv'⟩, hS.sleep.fires (hinv.expiresSafely hS.sleep hf) hf ?_ ?_,
    hinv.waitsOk hS.waits hf⟩
  · exact fun t w nx hnq hst => hinv.sleep_advance hS.sleep hnq hst
  · exact fun t sh hsh hno => hinv.queue_nil hS.sleep hsh hno

theorem NServing.run {es : List (Event τ)} (hS : NServing pshared s)
    (hrun : Run (Mutex.step cfg) HolderUnlocks s es s') : NServing pshared s' :=
  hrun.invariant hS fun _ _ _ hS hok hs => hS.step hok hs

theorem nserving_reachable {es : List (Event τ)}
    (hrun : Run (Mutex.step cfg) HolderUnlocks (Mutex.init .normal pshared) es s) :
    NServing pshared s :=
  NServing.run ⟨⟨.unlocked, none, .init pshared⟩, .init _ _ pshared, fun _ => trivial⟩ hrun

theorem allows_holderUnlocks : Allows (@HolderUnlocks τ _) where
  step _ _ := trivial
  wake _ _ _ := trivial

/-! ## The holder -/

/-- A stage of the schedule. -/
abbrev HolderStage (cfg : Config τ) (s : State τ) (t : τ) (op : Op) (r : Ret) (s' : State τ) :
    Prop :=
  Stage cfg HolderUnlocks s t op r s'

theorem NServing.wake_stage (cfg : Config τ) (hS : NServing pshared s)
    {sh : Word} (hpc : s.pc t = .nWake sh) :
    ∃ s', HolderStage cfg s t .unlock .ok s' := by
  have hsh : (s.pc t).wakesShared = some (sh != 0#32) := by rw [hpc]; rfl
  refine Mutex.wake_stage allows_holderUnlocks hsh fun u hu => ?_
  obtain ⟨op, sh', hwait⟩ := Pc.isNWait_iff.mp (hS.sleep.asleep u hu)
  rw [hwait]
  exact Option.some_ne_none _

/-- A thread in `unlock` does not sleep. -/
theorem NServing.awake (hS : NServing pshared s) (hno : (s.pc t).isNWait = false) :
    t ∉ s.queue := by
  intro hq
  have hwait : (s.pc t).isNWait = true := hS.sleep.asleep t hq
  rw [hno] at hwait
  cases hwait

theorem NServing.store_stage (cfg : Config τ) (hS : NServing pshared s)
    {sh : Word} (hpc : s.pc t = .nStore sh) :
    ∃ s', HolderStage cfg s t .unlock .ok s' := by
  have hq : t ∉ s.queue := hS.awake (by rw [hpc]; rfl)
  have hst : (s.pc t).step (cfg.tid t) s.word = some (sh, .goto (.nWake sh)) := by
    rw [hpc]
    rfl
  have hS₁ : NServing pshared _ := hS.step (e := .step t) trivial (stepGoto hq hst)
  obtain ⟨s', hstage⟩ := hS₁.wake_stage cfg (advance_goto_pc ..)
  exact ⟨s', hstage.goto allows_holderUnlocks hq hst⟩

theorem NServing.dec_stage (cfg : Config τ) (hS : NServing pshared s)
    {sh : Word} (hpc : s.pc t = .nDec sh) :
    ∃ s', HolderStage cfg s t .unlock .ok s' := by
  have hq : t ∉ s.queue := hS.awake (by rw [hpc]; rfl)
  have hst : (s.pc t).step (cfg.tid t) s.word = some (s.word - 1#32,
      if s.word ≠ sh ||| mutexStateBitsLockedUncontended then .goto (.nStore sh)
      else .ret .unlock .ok) := by
    rw [hpc]
    rfl
  split at hst
  · have hS₁ : NServing pshared _ := hS.step (e := .step t) trivial (stepGoto hq hst)
    obtain ⟨s', hstage⟩ := hS₁.store_stage cfg (advance_goto_pc ..)
    exact ⟨s', hstage.goto allows_holderUnlocks hq hst⟩
  · exact ⟨_, .ret allows_holderUnlocks hq hst⟩

/-- The first read of an `unlock`. -/
theorem NServing.enter_stage (cfg : Config τ) (hS : NServing pshared s)
    (hpc : s.pc t = .enter .unlock) :
    ∃ s', HolderStage cfg s t .unlock .ok s' := by
  obtain ⟨st, h, hinv⟩ := hS.inv
  have hq : t ∉ s.queue := hS.awake (by rw [hpc]; rfl)
  have hst : (s.pc t).step (cfg.tid t) s.word =
      some (s.word, .goto (.nDec (sharedWord pshared))) := by
    rw [hpc, Pc.step, hinv.word]
    simp only [dispatch, NState.word_type, if_true, NState.word_shared]
  have hS₁ : NServing pshared _ := hS.step (e := .step t) trivial (stepGoto hq hst)
  obtain ⟨s', hstage⟩ := hS₁.dec_stage cfg (advance_goto_pc ..)
  exact ⟨s', hstage.goto allows_holderUnlocks hq hst⟩

/-- The mutex is taken or it is not: `trylock` returns. -/
theorem returns_nTry_any {tid w sh : Word} : ∃ r, Returns tid 1 w (.nTry sh) .trylock r := by
  by_cases hw : w = sh ||| mutexStateBitsUnlocked
  · exact ⟨.ok, .ret (by rw [Pc.step, bionicCmpxchg, if_pos hw])⟩
  · exact ⟨.ebusy, .ret (by rw [Pc.step, bionicCmpxchg, if_neg hw])⟩

/-- The holder finishes the call that it is in, unless it waits for itself. -/
theorem NServing.holder_stage (hS : NServing pshared s) (hinv : NormInv pshared s st (some t))
    (hno : ¬ WaitsForItself s t) (hop : (s.pc t).op = some op) :
    ∃ r s', HolderStage cfg s t op r s' := by
  have hlock : op ≠ .lock ∧ op ≠ .lockTimeoutNp := by
    refine ⟨fun heq => hno ⟨(hinv.holds_iff t).mpr rfl, .inl (heq ▸ hop)⟩, fun heq => ?_⟩
    exact hno ⟨(hinv.holds_iff t).mpr rfl, .inr (heq ▸ hop)⟩
  have hl := hinv.locals t
  cases hpc : s.pc t with
  | idle =>
      rw [hpc] at hop
      cases hop
  | enter op' =>
      rw [hpc] at hop
      obtain rfl := Option.some.inj hop
      cases op' with
      | unlock =>
          obtain ⟨s', hstage⟩ := hS.enter_stage cfg hpc
          exact ⟨.ok, s', hstage⟩
      | trylock =>
          have hst : (Pc.enter .trylock).step (cfg.tid t) s.word =
              some (s.word, .goto (.nTry (sharedWord pshared))) := by
            rw [Pc.step, hinv.word]
            simp only [dispatch, NState.word_type, if_true, NState.word_shared]
          obtain ⟨r, hret⟩ := @returns_nTry_any (cfg.tid t) s.word (sharedWord pshared)
          obtain ⟨s', hstage⟩ := (Returns.goto hst hret).stage allows_holderUnlocks rfl hpc
            (hS.awake (by rw [hpc]; rfl))
          exact ⟨r, s', hstage⟩
      | lock => exact absurd rfl hlock.1
      | lockTimeoutNp => exact absurd rfl hlock.2
  | nTry sh =>
      rw [hpc] at hop
      obtain rfl := Option.some.inj hop
      obtain ⟨r, hret⟩ := @returns_nTry_any (cfg.tid t) s.word sh
      obtain ⟨s', hstage⟩ := hret.stage allows_holderUnlocks rfl hpc
        (hS.awake (by rw [hpc]; rfl))
      exact ⟨r, s', hstage⟩
  | nDec sh =>
      rw [hpc] at hop
      obtain rfl := Option.some.inj hop
      obtain ⟨s', hstage⟩ := hS.dec_stage cfg hpc
      exact ⟨.ok, s', hstage⟩
  | nStore sh =>
      rw [hpc] at hop
      obtain rfl := Option.some.inj hop
      obtain ⟨s', hstage⟩ := hS.store_stage cfg hpc
      exact ⟨.ok, s', hstage⟩
  | nWake sh =>
      rw [hpc] at hl
      exact absurd rfl hl.2
  | nLock op' sh | nSwap op' sh | nWait op' sh =>
      have hwaits := hS.waits t
      rw [hpc] at hwaits hop
      obtain rfl := Option.some.inj hop
      rcases hwaits with heq | heq
      · exact absurd heq hlock.1
      · exact absurd heq hlock.2
  | nClock sh =>
      rw [hpc] at hop
      exact absurd (Option.some.inj hop).symm hlock.2
  | _ =>
      rw [hpc] at hl
      exact hl.elim

/-! ## A free mutex -/

/-- A thread that is awake inside finishes its call while the mutex is free; if it asks
for the mutex it gets it. -/
theorem NServing.free_stage (hS : NServing pshared s) (hinv : NormInv pshared s st none)
    (hq : t ∉ s.queue) (hop : (s.pc t).op = some op) :
    ∃ r s', HolderStage cfg s t op r s' ∧ (op ≠ .unlock → r = .ok) := by
  have hl := hinv.locals t
  by_cases hacq : op = .unlock
  · subst hacq
    cases hpc : s.pc t with
    | nWake sh =>
        obtain ⟨s', hstage⟩ := hS.wake_stage cfg hpc
        exact ⟨.ok, s', hstage, fun _ => rfl⟩
    | enter op' =>
        rw [hpc] at hl hop
        cases hl (Option.some.inj hop)
    | nDec sh | nStore sh =>
        rw [hpc] at hl
        cases hl.2
    | nLock op' sh | nSwap op' sh | nWait op' sh =>
        rw [hpc] at hl hop
        exact absurd (Option.some.inj hop) hl.1
    | idle | nClock sh | nTry sh =>
        rw [hpc] at hop
        cases hop
    | _ =>
        rw [hpc] at hl
        exact hl.elim
  · have hword : s.word = NState.unlocked.word pshared := by
      rw [hinv.word, hinv.free.mpr rfl]
    obtain ⟨n, -, hret⟩ : ∃ n ≤ 5, Returns (cfg.tid t) n _ (s.pc t) op .ok :=
      normal_returns hl hop hacq
    obtain ⟨s', hstage⟩ := hret.stage allows_holderUnlocks hword rfl hq
    exact ⟨.ok, s', hstage, fun _ => rfl⟩

theorem NServing.settled (hS : NServing pshared s) (hinv : NormInv pshared s st none)
    (hnone : ∀ t, t ∉ s.queue → s.pc t = .idle) : Settled .normal pshared s := by
  have hword : s.word = pthreadMutexInit .normal pshared := by
    rw [init_normal, hinv.word, hinv.free.mpr rfl]
  have hqueue : s.queue = [] := by
    by_contra hne
    have hmark : (normalDiscipline pshared).marked s.word = false := by
      rw [hword]
      cases pshared <;> decide
    obtain ⟨u, hnq, hin⟩ := hS.sleep.someone_inside hne hmark
    exact hin (hnone u hnq)
  exact ⟨fun t => hnone t (by rw [hqueue]; exact List.not_mem_nil), hqueue, hword⟩

/-! ## One after the other -/

/-- An idle holder unlocks the mutex. -/
theorem NServing.unlock_stage (hS : NServing pshared s) (hholds : Holds s t)
    (hidle : s.pc t = .idle) : ∃ s', HolderStage cfg s t .unlock .ok s' := by
  have hs : Mutex.step cfg s (.call t .unlock) = some (s.setPc t (.enter .unlock)) := by
    simp only [Mutex.step, if_pos hidle]
  have hS₁ : NServing pshared _ := hS.step (e := .call t .unlock) hholds hs
  obtain ⟨s', hstage⟩ := hS₁.enter_stage cfg (t := t) (by rw [setPc_pc, if_pos rfl])
  refine ⟨s', hstage.cons hs hholds trivial (fun u hu => ?_) rfl⟩
  rw [setPc_pc, if_neg hu]

/-- A stage makes nobody wait for itself. -/
theorem Stage.waitsForItself (hstage : HolderStage cfg s t op r s') (hw : WaitsForItself s' u) :
    WaitsForItself s u := by
  obtain ⟨⟨hlt, howes⟩, hop⟩ := hw
  have hu : u ≠ t := by
    rintro rfl
    rw [hstage.idle] at hop
    rcases hop with hop | hop <;> cases hop
  rw [hstage.others_op hu] at hop
  rw [locks_of_log_cons hstage.log, unlocks_of_log_cons hstage.log, if_neg hu, if_neg hu] at hlt
  refine ⟨⟨hlt, ?_⟩, hop⟩
  rcases hstage.others u hu with heq | haw
  · rw [← heq]
    exact howes
  · rw [← Pc.afterWait_owes haw]
    exact howes

theorem nserving_service : Service cfg HolderUnlocks .normal pshared
    fun s => NServing pshared s ∧ ∀ t, ¬ WaitsForItself s t where
  keeps := by
    rintro s t op r s' ⟨hS, hno⟩ hstage
    obtain ⟨es, -, hrun⟩ := hstage.run
    exact ⟨hS.run hrun, fun u hw => hno u (hstage.waitsForItself hw)⟩
  next := by
    rintro s ⟨hS, hno⟩
    obtain ⟨st, h, hinv⟩ := hS.inv
    cases h with
    | some t =>
        have hheld : s.held t = 1 := (hinv.books.held t).trans (if_pos rfl)
        cases hop : (s.pc t).op with
        | none =>
            have hidle := Pc.op_eq_none.mp hop
            obtain ⟨s', hstage⟩ := hS.unlock_stage ((hinv.holds_iff t).mpr rfl) hidle
            exact .unlock hstage hidle (by omega)
        | some op =>
            obtain ⟨r, s', hstage⟩ := hS.holder_stage hinv (hno t) hop
            exact .finish hstage hop fun _ hzero => by omega
    | none =>
        by_cases hsome : ∃ t, t ∉ s.queue ∧ s.pc t ≠ .idle
        · obtain ⟨t, hq, hin⟩ := hsome
          obtain ⟨op, hop⟩ := Option.ne_none_iff_exists'.mp fun hno => hin (Pc.op_eq_none.mp hno)
          obtain ⟨r, s', hstage, hr⟩ := hS.free_stage hinv hq hop
          exact .finish hstage hop fun hacq _ => hr hacq
        · exact .settled (hS.settled hinv fun t hq => by_contra fun hin => hsome ⟨t, hq, hin⟩)

/-! ## Waiting for itself -/

omit [DecidableEq τ] in
theorem Pc.owes_of_op {pc : Pc} (hop : pc.op = some op) (hacq : op ≠ .unlock) : pc.owes = 0 := by
  cases pc with
  | wake _ | nWake _ => exact absurd (Option.some.inj hop).symm hacq
  | _ => rfl

/-- Without the clock the two calls that wait return only with the mutex, and so does
`lock` in any case. -/
theorem NormInv.returned_ok (hinv : NormInv pshared s st h) (hs : Mutex.step cfg s e = some s')
    (hlog : s'.log = (t, op, r) :: s.log) (hop : op = .lock ∨ op = .lockTimeoutNp ∧ e.Regular) :
    r = .ok := by
  rcases hop with rfl | ⟨rfl, hreg⟩
  · exact hinv.returned hs hlog (.inl rfl)
  have hinside : ∀ {s'' : State τ}, s''.log = s.log →
      ¬ s''.log = (t, .lockTimeoutNp, r) :: s.log := by
    intro s'' hl hlog'
    rw [hl] at hlog'
    exact absurd (congrArg List.length hlog') (by simp)
  cases step_fires hs with
  | call _ => exact absurd hlog (hinside rfl)
  | interrupt _ _ | timeout _ _ | expire _ _ | timeoutBusy _ _ => exact hreg.elim
  | @step t' w nx hq hst =>
      obtain ⟨st', h', -, -, hstep, -⟩ := nstep_ok hinv.free (hinv.locals t') (hinv.word ▸ hst)
      cases hstep with
      | goto _ | sleep | stored _ => exact absurd hlog (hinside rfl)
      | acquired _ _ | released _ =>
          obtain ⟨-, -, rfl⟩ := ret_inj hlog
          rfl
      | busy _ =>
          obtain ⟨-, rfl, rfl⟩ := ret_inj hlog
          cases Pc.step_ebusy hst
  | wakeNone _ _ | wakeSome _ _ _ _ =>
      obtain ⟨-, -, rfl⟩ := ret_inj hlog
      rfl

/-- A holder in a call that waits stays in it and goes on holding the mutex: to return it
would have to be given the mutex that it has. -/
theorem NServing.stuck_step (hS : NServing pshared s) (hok : HolderUnlocks s e)
    (hs : Mutex.step cfg s e = some s') (hholds : Holds s t) (hin : (s.pc t).op = some op)
    (hop : op = .lock ∨ op = .lockTimeoutNp ∧ e.Regular) :
    Holds s' t ∧ (s'.pc t).op = some op := by
  have hacq : op ≠ .unlock := by
    rcases hop with rfl | ⟨rfl, -⟩ <;> decide
  obtain ⟨st, h, hinv⟩ := hS.inv
  obtain ⟨st', h', hinv', -⟩ := hinv.fires hok (step_fires hs)
  -- it holds the mutex as long as its counts stay and it is in the same call
  have hstays : s'.locks t = s.locks t → s'.unlocks t = s.unlocks t →
      (s'.pc t).op = some op → Holds s' t ∧ (s'.pc t).op = some op := by
    intro hlocks hunlocks hin'
    refine ⟨⟨?_, Pc.owes_of_op hin' hacq⟩, hin'⟩
    rw [hlocks, hunlocks]
    exact hholds.1
  cases step_callStep hs with
  | @call u op' _ hidle hlog hpc =>
      have hu : t ≠ u := by
        rintro rfl
        rw [hidle] at hin
        cases hin
      refine hstays (locks_of_log_eq hlog t) (unlocks_of_log_eq hlog t) ?_
      rw [hpc, if_neg hu, hin]
  | inside _ hlog hsame =>
      refine hstays (locks_of_log_eq hlog t) (unlocks_of_log_eq hlog t) ?_
      rw [hsame, hin]
  | @ret u op' r _ hlog hopu hidle hsame =>
      by_cases hu : t = u
      · subst hu
        obtain rfl : op' = op := Option.some.inj (hopu.symm.trans hin)
        obtain rfl := hinv.returned_ok hs hlog hop
        -- it would hold the mutex twice
        have hbooks := hinv.books t
        have hbooks' := hinv'.books t
        beta_reduce at hbooks hbooks'
        obtain ⟨hlocks, hunlocks⟩ := counts_of_ret hlog
        rw [lockGain, if_pos ⟨hacq, rfl⟩] at hlocks
        rw [unlockGain, if_neg fun hno => hacq hno.1] at hunlocks
        rw [if_pos ((hinv.holds_iff t).mp hholds)] at hbooks
        have hmost : (if h' = some t then 1 else 0) ≤ 1 := by split <;> omega
        rw [hidle, show Pc.idle.owes = 0 from rfl] at hbooks'
        omega
      · have hlocks := locks_of_log_cons hlog t
        have hunlocks := unlocks_of_log_cons hlog t
        rw [if_neg hu] at hlocks hunlocks
        refine hstays hlocks hunlocks ?_
        rw [hsame t hu, hin]

theorem NServing.stuck {es : List (Event τ)} (hS : NServing pshared s) (hholds : Holds s t)
    (hin : (s.pc t).op = some op)
    (hop : op = .lock ∨ op = .lockTimeoutNp ∧ ∀ e ∈ es, e.Regular)
    (hrun : Run (Mutex.step cfg) HolderUnlocks s es s') :
    Holds s' t ∧ (s'.pc t).op = some op := by
  induction hrun with
  | nil => exact ⟨hholds, hin⟩
  | @snoc es s₁ s₂ e hrun hok hs ih =>
      have hreg : op = .lock ∨ op = .lockTimeoutNp ∧ e.Regular :=
        hop.imp_right fun ⟨heq, hall⟩ => ⟨heq, hall e (by simp)⟩
      obtain ⟨hholds₁, hin₁⟩ := ih (hop.imp_right fun ⟨heq, hall⟩ =>
        ⟨heq, fun e he => hall e (List.mem_append_left _ he)⟩)
      exact (hS.run hrun).stuck_step hok hs hholds₁ hin₁ hreg

/-- In every state of every run on a normal mutex in which only the holder unlocks:
without a new request, without the clock and without a wake-up for no reason all calls
can return and the mutex be free, with every thread that asks for the mutex and does not
hold it getting it on the way, exactly if no holder waits for itself. And a holder inside
its own `lock` stays there in every continuation, holding the mutex. -/
theorem normal_served_iff [Fintype τ] {es : List (Event τ)}
    (hrun : Run (Mutex.step cfg) HolderUnlocks (Mutex.init .normal pshared) es s) :
    ((∃ es' s' new, (∀ e ∈ es', e.Regular) ∧ Run (Mutex.step cfg) HolderUnlocks s es' s' ∧
        (∀ t, s'.pc t = .idle) ∧ s'.queue = [] ∧ s'.word = pthreadMutexInit .normal pshared ∧
        s'.log = new ++ s.log ∧
        ∀ t op, (s.pc t).op = some op → op ≠ .unlock → ¬ Holds s t → (t, op, .ok) ∈ new) ↔
      ¬ ∃ t, WaitsForItself s t) ∧
    ∀ t, Holds s t → (s.pc t).op = some .lock →
      ∀ es' s', Run (Mutex.step cfg) HolderUnlocks s es' s' →
        Holds s' t ∧ (s'.pc t).op = some .lock := by
  have hS := nserving_reachable hrun
  obtain ⟨st, h, hinv⟩ := hS.inv
  refine ⟨⟨?_, fun hno => ?_⟩, ?_⟩
  · rintro ⟨es', s', new, hreg, hrun', hidle, -⟩ ⟨t, hholds, hin⟩
    rcases hin with hin | hin
    · have hstuck := (hS.stuck hholds hin (.inl rfl) hrun').2
      rw [hidle t] at hstuck
      cases hstuck
    · have hstuck := (hS.stuck hholds hin (.inr ⟨rfl, hreg⟩) hrun').2
      rw [hidle t] at hstuck
      cases hstuck
  · obtain ⟨es', s', new, hreg, hrun', hsettled, hlog, hserved⟩ :=
      nserving_service.servable ⟨hS, fun t ht => hno ⟨t, ht⟩⟩
    refine ⟨es', s', new, hreg, hrun', hsettled.idle, hsettled.queue, hsettled.word, hlog,
      fun t op hop hacq hnot => hserved t op hop hacq ?_⟩
    rw [hinv.books.held t, if_neg fun heq => hnot ((hinv.holds_iff t).mpr heq)]
  · intro t hholds hin es' s' hrun'
    exact hS.stuck hholds hin (.inl rfl) hrun'

/-- Thread `a` holds the mutex, thread `b` sleeps on it, and thread `c` has just asked. -/
def heldAndAsked {T : Type} (a b c : T) : List (Event T) :=
  [.call a .lock, .step a, .step a, .call b .lock, .step b, .step b, .step b, .step b,
    .call c .lockTimeoutNp, .step c]

theorem normal_served_iff_asleep :
    ∃ s, Run (Mutex.step threeThreads) HolderUnlocks (Mutex.init .normal true)
        (heldAndAsked 0 1 2) s ∧ s.queue = [1] ∧ Holds s 0 ∧
      ∃ es' s' new, (∀ e ∈ es', e.Regular) ∧
        Run (Mutex.step threeThreads) HolderUnlocks s es' s' ∧ s'.queue = [] ∧
        s'.log = new ++ s.log ∧ (1, .lock, .ok) ∈ new ∧ (2, .lockTimeoutNp, .ok) ∈ new := by
  have hsome : (runEvents (Mutex.step threeThreads) (Mutex.init .normal true)
      (heldAndAsked 0 1 2)).isSome := by decide
  have hno : ¬ ∃ t, WaitsForItself (Option.get _ hsome) t := by
    unfold WaitsForItself Holds
    decide +revert
  have hholds : Holds (Option.get _ hsome) 0 := ⟨Nat.one_pos, rfl⟩
  have hone : ¬ Holds (Option.get _ hsome) 1 := fun h => Nat.not_lt_zero _ h.1
  have htwo : ¬ Holds (Option.get _ hsome) 2 := fun h => Nat.not_lt_zero _ h.1
  have hrun : Run (Mutex.step threeThreads) HolderUnlocks (Mutex.init .normal true)
      (heldAndAsked 0 1 2) _ :=
    Run.of_runEvents (by simp [heldAndAsked, HolderUnlocks]) (Option.some_get hsome).symm
  obtain ⟨es', s', new, hes, hrun', -, hqueue, -, hlog, hserved⟩ :=
    (normal_served_iff hrun).1.mpr hno
  exact ⟨_, hrun, rfl, hholds, es', s', new, hes, hrun', hqueue, hlog,
    hserved 1 .lock rfl (by decide) hone, hserved 2 .lockTimeoutNp rfl (by decide) htwo⟩

end Pisces.Mutex
