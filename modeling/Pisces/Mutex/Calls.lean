import Pisces.Mutex.Recursive
import Pisces.Mutex.Normal

/-!
# One call after another

What a caller sees of a mutex is the calls it makes and their results. This
file reads both off the steps: a thread stays in the function it has called
until that function returns, and the result in the log is the result of that
function (`CallStep`).

The results themselves are the same for the three types once the right promise
is made. A plain `lock` that returns has succeeded, unless the caller has asked
for more than the mutex can count; an `unlock` succeeds exactly for a caller
that has come back from more acquires than `unlock`s. `Served` collects this,
so that code built on a mutex need not know which type it has.
-/

namespace Pisces.Mutex

open Pisces.Lib

variable {τ : Type}

/-- The function a program point belongs to. -/
def Pc.op : Pc → Option Op
  | .idle => none
  | .enter op | .nLock op _ | .nSwap op _ | .nWait op _ | .incr op _ | .incrReload op
  | .quick op _ | .reload op _ | .acquire op _ | .flip op _ _ | .wait op _ _ => some op
  | .nClock _ | .acquireClock _ | .flipReload _ | .clock _ _ => some .lockTimeoutNp
  | .nTry _ | .tryAcquire _ => some .trylock
  | .nDec _ | .nStore _ | .nWake _ | .dec _ | .decReload | .swap _ _ | .wake _ => some .unlock

/-- A thread that goes on stays in its function, and one that returns leaves
that one. -/
def Next.StaysIn (op : Option Op) : Next → Prop
  | .goto pc => pc.op = op
  | .ret op' _ => op = some op'
  | .sleep => True

theorem Pc.op_eq_none {pc : Pc} : pc.op = none ↔ pc = .idle := by
  cases pc <;> simp [Pc.op]

theorem bionicCmpxchg_staysIn {old new w w' : Word} {ok fail nx : Next} {op : Option Op}
    (hs : some (bionicCmpxchg old new w ok fail) = some (w', nx))
    (hok : ok.StaysIn op) (hfail : fail.StaysIn op) : nx.StaysIn op := by
  rcases bionicCmpxchg_cases (Option.some.inj hs) with ⟨-, -, rfl⟩ | ⟨-, -, rfl⟩
  · exact hok
  · exact hfail

theorem lockLoop_op (op : Op) (m mvalue : Word) : (lockLoop op m mvalue).op = some op := by
  rw [lockLoop]
  split
  · rfl
  · split
    · rfl
    · split
      · next hop => rw [hop]; rfl
      · rfl

theorem recursiveIncrement_staysIn (op : Op) (mvalue mtype : Word) :
    (recursiveIncrement op mvalue mtype).StaysIn (some op) := by
  rw [recursiveIncrement]
  split
  · rfl
  · split <;> rfl

theorem dispatch_staysIn (op : Op) (tid mvalue : Word) :
    (dispatch op tid mvalue).StaysIn (some op) := by
  simp only [dispatch]
  split
  · cases op <;> rfl
  · cases op with
    | unlock =>
        simp only
        split
        · rfl
        · split <;> rfl
    | trylock =>
        simp only
        split
        · exact recursiveIncrement_staysIn _ _ _
        · rfl
    | lock | lockTimeoutNp =>
        simp only
        split
        · exact recursiveIncrement_staysIn _ _ _
        · split
          · rfl
          · exact lockLoop_op _ _ _

/-- Every atomic step of a thread stays in the function it has called. -/
theorem Pc.step_staysIn {pc : Pc} {tid w w' : Word} {nx : Next}
    (hs : pc.step tid w = some (w', nx)) : nx.StaysIn pc.op := by
  have hsame : ∀ {v : Word} {n : Next}, some (v, n) = some (w', nx) → nx = n := by
    intro v n h
    exact (Prod.mk.inj (Option.some.inj h)).2.symm
  cases pc with
  | idle | nWake _ | wake _ => cases hs
  | enter op => rw [hsame hs]; exact dispatch_staysIn op tid w
  | nLock op sh | nTry sh | incr op mv | quick op m | tryAcquire m | dec mv =>
      exact bionicCmpxchg_staysIn hs rfl rfl
  | acquire op m =>
      refine bionicCmpxchg_staysIn hs rfl ?_
      split
      · next hop => rw [hop]; rfl
      · rfl
  | flip op m mv =>
      refine bionicCmpxchg_staysIn hs ?_ ?_
      · split
        · next hop => rw [hop]; rfl
        · rfl
      · split
        · next hop => rw [hop]; rfl
        · rfl
  | nSwap op sh =>
      rw [hsame hs]
      split
      · rfl
      · split
        · next hop => rw [hop]; rfl
        · rfl
  | nClock sh | nStore sh | incrReload op | acquireClock m | flipReload m | decReload =>
      rw [hsame hs]
      rfl
  | nWait op sh | wait op m mv | nDec sh | swap nv sh =>
      rw [hsame hs]
      split <;> trivial
  | reload op m => rw [hsame hs]; exact lockLoop_op op m w
  | clock m mv =>
      rw [hsame hs]
      split
      · rfl
      · exact lockLoop_op _ m mv

theorem Pc.afterWait_op {pc pc' : Pc} (h : pc.afterWait = some pc') : pc'.op = pc.op := by
  cases pc <;> simp only [Pc.afterWait, reduceCtorEq, Option.some.injEq] at h <;>
    (subst h; rfl)

variable [DecidableEq τ]

/-- What an event is to the calls: a call, a return, or neither. -/
inductive CallStep (s : State τ) (e : Event τ) (s' : State τ) : Prop
  | call {t : τ} {op : Op} : e = .call t op → s.pc t = .idle → s'.log = s.log →
      (∀ u, s'.pc u = if u = t then .enter op else s.pc u) → CallStep s e s'
  | inside : (∀ t op, e ≠ .call t op) → s'.log = s.log → (∀ u, (s'.pc u).op = (s.pc u).op) →
      CallStep s e s'
  | ret {t : τ} {op : Op} {r : Ret} : e.actor = t → s'.log = (t, op, r) :: s.log →
      (s.pc t).op = some op → s'.pc t = .idle → (∀ u, u ≠ t → (s'.pc u).op = (s.pc u).op) →
      CallStep s e s'

/-- A return that moves nobody else. -/
theorem CallStep.of_ret {s s' : State τ} {e : Event τ} {t : τ} {op : Op} {r : Ret}
    (hactor : e.actor = t) (hlog : s'.log = (t, op, r) :: s.log) (hop : (s.pc t).op = some op)
    (hpc : ∀ u, s'.pc u = if u = t then .idle else s.pc u) : CallStep s e s' := by
  refine .ret hactor hlog hop ?_ fun u hu => ?_
  · rw [hpc, if_pos rfl]
  · rw [hpc, if_neg hu]

theorem isTimedWait_op {pc : Pc} (h : pc.isTimedWait = true) : pc.op = some .lockTimeoutNp := by
  cases pc <;> simp_all [Pc.isTimedWait, Pc.op]

theorem isClock_op {pc : Pc} (h : pc.isClock = true) : pc.op = some .lockTimeoutNp := by
  cases pc <;> simp_all [Pc.isClock, Pc.op]

theorem wakesShared_op {pc : Pc} {sh : Bool} (h : pc.wakesShared = some sh) :
    pc.op = some .unlock := by
  cases pc <;> simp_all [Pc.wakesShared, Pc.op]

/-- Only a wait with a timeout can time out. -/
theorem timeout_isTimedWait {cfg : Config τ} {s s' : State τ} {u : τ}
    (h : step cfg s (.timeout u) = some s') : (s.pc u).isTimedWait = true := by
  simp only [step] at h
  split at h
  · split at h
    · next hg => exact hg.2
    · cases h
  · cases h

theorem step_callStep {cfg : Config τ} {s s' : State τ} {e : Event τ}
    (h : step cfg s e = some s') : CallStep s e s' := by
  cases step_fires h with
  | @call t op hpc => exact .call rfl hpc rfl (setPc_pc s t · _)
  | @step t w nx hq hst =>
      have hstays := Pc.step_staysIn hst
      cases nx with
      | goto _ | sleep =>
          refine .inside (by simp) rfl fun u => ?_
          rw [advance_pc]
          split
          · next hu => rw [hu]; first | exact hstays | rfl
          · rfl
      | ret op r => exact .of_ret rfl rfl hstays (advance_pc s t · w (.ret op r))
  | @expire t hq hc => exact .of_ret rfl rfl (isClock_op hc) (ret_pc s t · _ _)
  | @wakeNone t sh hsh hno => exact .of_ret rfl rfl (wakesShared_op hsh) (ret_pc s t · _ _)
  | @wakeSome t u sh pc hsh haw hq hkey =>
      refine .ret (t := t) rfl rfl (wakesShared_op hsh) ?_ fun v hv => ?_
      · rw [ret_pc, if_pos rfl]
      · rw [ret_pc, if_neg hv, resume_pc]
        split
        · next hu => rw [hu]; exact Pc.afterWait_op haw
        · rfl
  | @interrupt u pc haw hq | @timeout u pc haw hq =>
      refine .inside (by simp) rfl fun v => ?_
      rw [resume_pc]
      split
      · next hv => rw [hv]; exact Pc.afterWait_op haw
      · rfl
  | @timeoutBusy u op m mv pc hpc hq =>
      refine .of_ret (t := u) rfl rfl (isTimedWait_op (timeout_isTimedWait h)) fun v => ?_
      rw [ret_pc, resume_pc]
      split <;> rfl

omit [DecidableEq τ] in
theorem ret_inj {t t' : τ} {op op' : Op} {r r' : Ret} {log log' : List (τ × Op × Ret)}
    (h : (t', op', r') :: log' = (t, op, r) :: log) : t' = t ∧ op' = op ∧ r' = r := by
  simp only [List.cons.injEq, Prod.mk.injEq] at h
  exact h.1

/-- After a return the books are about the depth alone. -/
theorem CallStep.idle_of_ret {s s' : State τ} {e : Event τ} {t : τ} {op : Op} {r : Ret}
    (h : CallStep s e s') (hlog : s'.log = (t, op, r) :: s.log) : s'.pc t = .idle := by
  cases h with
  | call _ _ hl _ | inside _ hl _ =>
      rw [hl] at hlog
      exact absurd (congrArg List.length hlog) (by simp)
  | ret _ hl _ hidle _ =>
      rw [hl] at hlog
      rw [← (ret_inj hlog).1]
      exact hidle

/-- A return in the counts of its thread. -/
theorem counts_of_ret {s s' : State τ} {t : τ} {op : Op} {r : Ret}
    (hlog : s'.log = (t, op, r) :: s.log) :
    s'.locks t = s.locks t + lockGain op r ∧ s'.unlocks t = s.unlocks t + unlockGain op r := by
  have hlocks := locks_of_log_cons hlog t
  have hunlocks := unlocks_of_log_cons hlog t
  rw [if_pos rfl] at hlocks hunlocks
  exact ⟨hlocks, hunlocks⟩

/-! ## What a caller can count on -/

/-- How often one thread can hold a mutex. -/
def MutexType.most : MutexType → Nat
  | .recursive => 2048
  | .normal | .errorcheck => 1

/-- How calls on a mutex of this type come back, in the runs with the promise
`ok`. How often a thread holds it is the `n` by which its successful acquires
outnumber its successful `unlock`s. -/
structure Served (cfg : Config τ) (ty : MutexType) (pshared : Bool)
    (ok : State τ → Event τ → Prop) : Prop where
  lock : ∀ {es s e s' t r n}, Run (step cfg) ok (Mutex.init ty pshared) es s → ok s e →
    step cfg s e = some s' → s'.log = (t, .lock, r) :: s.log → s.locks t = s.unlocks t + n →
    n < ty.most → r = .ok
  unlock : ∀ {es s e s' t r n}, Run (step cfg) ok (Mutex.init ty pshared) es s → ok s e →
    step cfg s e = some s' → s'.log = (t, .unlock, r) :: s.log → s.locks t = s.unlocks t + n →
    (r = .ok ↔ 0 < n)
  most : ∀ {es s t}, Run (step cfg) ok (Mutex.init ty pshared) es s → s.pc t = .idle →
    ∃ n, n ≤ ty.most ∧ s.locks t = s.unlocks t + n
  alone : ∀ {es s t u}, Run (step cfg) ok (Mutex.init ty pshared) es s → s.pc t = .idle →
    s.pc u = .idle → s.unlocks t < s.locks t → s.unlocks u < s.locks u → t = u

section Recursive

variable {cfg : Config τ} {ty : MutexType} {pshared : Bool} {s s' : State τ} {e : Event τ}
  {t u : τ} {a a' : OwnedLock τ}

open OwnedLock

theorem OwnedLock.depthOf_pos (h : 0 < a.depthOf t) : a.OwnedBy t := by
  cases a with
  | free => exact absurd h (by simp [depthOf])
  | held v c =>
      by_cases hv : v = t
      · exact ⟨c, by rw [hv]⟩
      · simp [depthOf, hv] at h

theorem OwnedLock.depthOf_le (a : OwnedLock τ) (t : τ) : a.depthOf t ≤ 2048 := by
  cases a with
  | free => exact Nat.zero_le _
  | held v c =>
      have hc := c.isLt
      rw [depthOf]
      split <;> omega

omit [DecidableEq τ] in
/-- An errorcheck mutex is held once. -/
theorem OwnedLock.Result.flat {op : Op} {r : Ret} (h : Result .errorcheck t a op r a')
    (hflat : a.depth ≤ 1) : a'.depth ≤ 1 := by
  cases h with
  | acquire _ => exact Nat.le_refl _
  | relock _ _ hty => cases hty
  | overflow _ _ _ | deadlock _ _ | busy _ _ | notOwner _ => exact hflat
  | unnest _ =>
      simp only [depth] at hflat ⊢
      omega
  | release => exact Nat.zero_le _

theorem recInv_flat (ht : cfg.TidsOk) (hty : ty ≠ .normal) {ok : State τ → Event τ → Prop}
    {es : List (Event τ)} (hrun : Run (step cfg) ok (Mutex.init ty pshared) es s) :
    ∃ a, RecInv cfg ty pshared s a ∧ (ty = .errorcheck → a.depth ≤ 1) := by
  refine hrun.invariant
    (I := fun s => ∃ a, RecInv cfg ty pshared s a ∧ (ty = .errorcheck → a.depth ≤ 1))
    ⟨.free, RecInv.init cfg ty pshared, fun _ => Nat.zero_le _⟩ ?_
  intro s e s' hI _ hs
  obtain ⟨a, hinv, hflat⟩ := hI
  obtain ⟨a', hinv', habs, -⟩ := fires_refines ht hty hinv (step_fires hs)
  refine ⟨a', hinv', fun herr => ?_⟩
  cases habs with
  | quiet _ ha | woke _ _ ha =>
      rw [ha]
      exact hflat herr
  | released _ _ _ ha =>
      rw [ha]
      exact Nat.zero_le _
  | result _ hr =>
      subst herr
      exact hr.flat (hflat rfl)

/-- A call on a recursive or errorcheck mutex returns. -/
theorem RecInv.returned (ht : cfg.TidsOk) (hty : ty ≠ .normal) (hinv : RecInv cfg ty pshared s a)
    (hs : step cfg s e = some s') {op : Op} {r : Ret} (hlog : s'.log = (t, op, r) :: s.log) :
    ∃ a', s'.locks t = s'.unlocks t + a'.depthOf t ∧
      (Result ty t a op r a' ∨ op = .unlock ∧ r = .ok) := by
  obtain ⟨a', hinv', habs, -⟩ := fires_refines ht hty hinv (step_fires hs)
  have hbooks := hinv'.books t
  rw [(step_callStep hs).idle_of_ret hlog] at hbooks
  refine ⟨a', hbooks, ?_⟩
  cases habs with
  | quiet hl _ | released hl _ _ _ =>
      rw [hl] at hlog
      exact absurd (congrArg List.length hlog) (by simp)
  | result hl hr =>
      rw [hl] at hlog
      obtain ⟨rfl, rfl, rfl⟩ := ret_inj hlog
      exact .inl hr
  | woke _ hl _ =>
      rw [hl] at hlog
      obtain ⟨-, rfl, rfl⟩ := ret_inj hlog
      exact .inr ⟨rfl, rfl⟩

theorem served_recursive (ht : cfg.TidsOk) (hty : ty ≠ .normal) :
    Served cfg ty pshared always where
  lock {es s e s' t r n} hrun _ hs hlog hn hlt := by
    obtain ⟨a, hinv⟩ := recInv_reachable ht hty hrun
    obtain ⟨a', hbooks, hr | ⟨hno, -⟩⟩ := hinv.returned ht hty hs hlog
    · obtain ⟨hlocks, hunlocks⟩ := counts_of_ret hlog
      cases hr with
      | acquire _ | relock _ _ _ => rfl
      | overflow _ hrec hc =>
          rw [hrec, MutexType.most] at hlt
          simp [depthOf, lockGain, unlockGain] at hbooks hlocks hunlocks
          omega
      | deadlock _ herr =>
          rw [herr, MutexType.most] at hlt
          simp [depthOf, lockGain, unlockGain] at hbooks hlocks hunlocks
          omega
      | busy hop _ => rcases hop with hop | hop <;> cases hop
    · cases hno
  unlock {es s e s' t r n} hrun _ hs hlog hn := by
    obtain ⟨a, hinv⟩ := recInv_reachable ht hty hrun
    obtain ⟨a', hbooks, hr⟩ := hinv.returned ht hty hs hlog
    obtain ⟨hlocks, hunlocks⟩ := counts_of_ret hlog
    have hok : r = .ok → 0 < n := by
      rintro rfl
      simp [lockGain, unlockGain] at hlocks hunlocks
      omega
    refine ⟨hok, fun hpos => ?_⟩
    rcases hr with hr | ⟨-, hr⟩
    · cases hr with
      | acquire hop | relock _ hop _ | overflow hop _ _ | deadlock hop _ => exact absurd rfl hop
      | busy hop _ => rcases hop with hop | hop <;> cases hop
      | unnest _ | release => rfl
      | notOwner hno =>
          have hzero : ¬ 0 < a.depthOf t := fun h => hno (depthOf_pos h)
          simp [lockGain, unlockGain] at hlocks hunlocks
          omega
    · exact hr
  most {es s t} hrun hidle := by
    obtain ⟨a, hinv, hflat⟩ := recInv_flat ht hty hrun
    have hbooks := hinv.books t
    rw [hidle] at hbooks
    refine ⟨a.depthOf t, ?_, hbooks⟩
    cases ty with
    | normal => exact absurd rfl hty
    | recursive => exact a.depthOf_le t
    | errorcheck =>
        refine Nat.le_trans ?_ (hflat rfl)
        cases a with
        | free => exact Nat.le_refl _
        | held v c =>
            rw [depthOf, depth]
            split <;> omega
  alone {es s t u} hrun htidle huidle htheld huheld := by
    obtain ⟨a, hinv⟩ := recInv_reachable ht hty hrun
    have hbt := hinv.books t
    have hbu := hinv.books u
    rw [htidle, show Pc.idle.owes = 0 from rfl] at hbt
    rw [huidle, show Pc.idle.owes = 0 from rfl] at hbu
    obtain ⟨c, hc⟩ := depthOf_pos (show 0 < a.depthOf t by omega)
    have hown := depthOf_pos (show 0 < a.depthOf u by omega)
    rw [hc] at hown
    exact (ownedBy_held.mp hown).symm

end Recursive

section Normal

variable {cfg : Config τ} {pshared : Bool} {s s' : State τ} {e : Event τ} {t : τ}

/-- Of the steps of a thread itself only those of `trylock` answer `EBUSY`; a timed
lock does so at a clock check or after its wait. -/
theorem Pc.step_ebusy {pc : Pc} {tid w w' : Word} {op : Op}
    (hs : pc.step tid w = some (w', .ret op .ebusy)) : op = .trylock := by
  cases pc <;> simp only [Pc.step, reduceCtorEq, Option.some.injEq, Prod.mk.injEq] at hs
  case enter op =>
    obtain ⟨-, hs⟩ := hs
    simp only [dispatch, recursiveIncrement] at hs
    cases op <;> simp only at hs <;> repeat' (split at hs)
    all_goals cases hs
  case nLock _ _ | nTry _ | incr _ _ | quick _ _ | acquire _ _ | flip _ _ _ | tryAcquire _
    | dec _ =>
    rcases bionicCmpxchg_cases hs with ⟨-, -, hret⟩ | ⟨-, -, hret⟩ <;> repeat' (split at hret)
    all_goals simp_all
  all_goals
    obtain ⟨-, hret⟩ := hs
    repeat' (split at hret)
    all_goals simp at hret

/-- A call on a normal mutex returns. -/
theorem NormInv.returned {st : NState} {h : Option τ} (hinv : NormInv pshared s st h)
    (hs : step cfg s e = some s') {op : Op} {r : Ret} (hlog : s'.log = (t, op, r) :: s.log) :
    op = .lock ∨ op = .unlock → r = .ok := by
  intro hop
  have hinside : ∀ {s'' : State τ}, s''.log = s.log → ¬ s''.log = (t, op, r) :: s.log := by
    intro s'' hl hlog'
    rw [hl] at hlog'
    exact absurd (congrArg List.length hlog') (by simp)
  cases step_fires hs with
  | call _ | interrupt _ _ | timeout _ _ => exact absurd hlog (hinside rfl)
  | @step t' w nx hq hst =>
      obtain ⟨st', h', -, -, hstep, -⟩ := nstep_ok hinv.free (hinv.locals t') (hinv.word ▸ hst)
      cases hstep with
      | goto _ | sleep | stored _ => exact absurd hlog (hinside rfl)
      | acquired _ _ | released _ =>
          obtain ⟨-, -, rfl⟩ := ret_inj hlog
          rfl
      | busy _ =>
          obtain ⟨-, rfl, rfl⟩ := ret_inj hlog
          have htry := Pc.step_ebusy hst
          rcases hop with rfl | rfl <;> cases htry
  | expire _ _ | timeoutBusy _ _ =>
      obtain ⟨-, rfl, -⟩ := ret_inj hlog
      rcases hop with hop | hop <;> cases hop
  | wakeNone _ _ | wakeSome _ _ _ _ =>
      obtain ⟨-, -, rfl⟩ := ret_inj hlog
      rfl

theorem served_normal : Served cfg .normal pshared HolderUnlocks where
  lock {es s e s' t r n} hrun _ hs hlog _ _ := by
    obtain ⟨st, h, hinv⟩ := normInv_reachable hrun
    exact hinv.returned hs hlog (.inl rfl)
  unlock {es s e s' t r n} hrun hok hs hlog hn := by
    obtain ⟨st, h, hinv⟩ := normInv_reachable hrun
    obtain rfl := hinv.returned hs hlog (.inr rfl)
    obtain ⟨st', h', hinv', -⟩ := hinv.fires hok (step_fires hs)
    have hbooks := hinv'.books t
    obtain ⟨hlocks, hunlocks⟩ := counts_of_ret hlog
    simp [lockGain, unlockGain] at hlocks hunlocks
    refine ⟨fun _ => ?_, fun _ => rfl⟩
    omega
  most {es s t} hrun hidle := by
    obtain ⟨st, h, hinv⟩ := normInv_reachable hrun
    have hbooks := hinv.books t
    rw [hidle] at hbooks
    refine ⟨if h = some t then 1 else 0, ?_, hbooks⟩
    rw [MutexType.most]
    split <;> omega
  alone {es s t u} hrun htidle huidle htheld huheld := by
    obtain ⟨st, h, hinv⟩ := normInv_reachable hrun
    have ht : h = some t := (hinv.holds_iff t).mp ⟨htheld, by rw [htidle]; rfl⟩
    have hu : h = some u := (hinv.holds_iff u).mp ⟨huheld, by rw [huidle]; rfl⟩
    rw [ht] at hu
    exact Option.some.inj hu

end Normal

/-- What needs no promise holds under any. -/
theorem Served.under {cfg : Config τ} {ty : MutexType} {pshared : Bool}
    (h : Served cfg ty pshared always) (ok : State τ → Event τ → Prop) :
    Served cfg ty pshared ok where
  lock hrun _ := h.lock (hrun.imp fun _ _ _ _ _ => trivial) trivial
  unlock hrun _ := h.unlock (hrun.imp fun _ _ _ _ _ => trivial) trivial
  most hrun := h.most (hrun.imp fun _ _ _ _ _ => trivial)
  alone hrun := h.alone (hrun.imp fun _ _ _ _ _ => trivial)

/-- Under the promise of the normal mutex all three types serve their callers. -/
theorem served_holderUnlocks {cfg : Config τ} (ht : cfg.TidsOk) (ty : MutexType)
    (pshared : Bool) : Served cfg ty pshared HolderUnlocks := by
  cases ty with
  | normal => exact served_normal
  | recursive | errorcheck => exact (served_recursive ht (by decide)).under HolderUnlocks

end Pisces.Mutex
