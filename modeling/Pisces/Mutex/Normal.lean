import Pisces.Mutex.Sleep

/-!
# Normal mutexes: mutual exclusion and no lost wake-up

A normal mutex has no owner in its word, only one of three states. Who holds
it is therefore a fact about the calls: a thread holds the mutex from the
return of a successful acquire to the step of its `unlock` that makes the word
unlocked. That step is the decrement when the state was 1; when it was 2 the
decrement only turns it into 1 and the release is the store after it, while
other threads may push the word back to 2 in between.

`unlock` does not check who calls it, so everything here is about runs in
which only the holder does (`HolderUnlocks`).
-/

namespace Pisces.Mutex

open Pisces.Lib

variable {τ : Type}

/-- The three states of a normal mutex. -/
inductive NState where
  | unlocked
  | locked
  | contended
  deriving DecidableEq, Repr

/-- The `shared` flag word of the code. -/
def sharedWord (pshared : Bool) : Word := if pshared then mutexSharedMask else 0#32

def NState.bits : NState → Word
  | .unlocked => mutexStateBitsUnlocked
  | .locked => mutexStateBitsLockedUncontended
  | .contended => mutexStateBitsLockedContended

/-- `shared | s`. -/
def NState.word (pshared : Bool) (st : NState) : Word := sharedWord pshared ||| st.bits

section Word

variable {pshared : Bool}

theorem NState.word_inj {st st' : NState} :
    st.word pshared = st'.word pshared ↔ st = st' := by
  cases pshared <;> cases st <;> cases st' <;> decide

theorem NState.word_type (st : NState) :
    st.word pshared &&& mutexTypeMask = mutexTypeBits .normal := by
  cases pshared <;> cases st <;> decide

theorem NState.word_shared (st : NState) :
    st.word pshared &&& mutexSharedMask = sharedWord pshared := by
  cases pshared <;> cases st <;> decide

theorem NState.word_dec_locked :
    NState.locked.word pshared - 1#32 = NState.unlocked.word pshared := by
  cases pshared <;> decide

theorem NState.word_dec_contended :
    NState.contended.word pshared - 1#32 = NState.locked.word pshared := by
  cases pshared <;> decide

theorem NState.word_unlocked : NState.unlocked.word pshared = sharedWord pshared := by
  cases pshared <;> decide

theorem init_normal : pthreadMutexInit .normal pshared = NState.unlocked.word pshared := by
  cases pshared <;> decide

end Word

/-- `t` is between a successful acquire and the step of its `unlock` that
makes the word unlocked: it has come back from one more acquire than from
`unlock`, and it is not in an `unlock` that only has its futex wake left. -/
def Holds [DecidableEq τ] (s : State τ) (t : τ) : Prop :=
  s.unlocks t < s.locks t ∧ (s.pc t).owes = 0

/-- The runs in which only the holder calls `unlock`. -/
def HolderUnlocks [DecidableEq τ] (s : State τ) : Event τ → Prop
  | .call t .unlock => Holds s t
  | _ => True

/-- What thread `t` relies on at each program point, when `holder` holds the
mutex. -/
def NLocalOk (pshared : Bool) (holder : Option τ) (t : τ) : Pc → Prop
  | .idle => True
  | .enter op => op = .unlock → holder = some t
  | .nLock op sh | .nSwap op sh | .nWait op sh => op ≠ .unlock ∧ sh = sharedWord pshared
  | .nClock sh | .nTry sh => sh = sharedWord pshared
  | .nDec sh | .nStore sh => sh = sharedWord pshared ∧ holder = some t
  | .nWake sh => sh = sharedWord pshared ∧ holder ≠ some t
  | _ => False

/-- Only `t`'s hold may differ. -/
def HolderOnlyBy (t : τ) (h h' : Option τ) : Prop := ∀ u, u ≠ t → (h = some u ↔ h' = some u)

theorem NLocalOk.onlyBy {pshared : Bool} {h h' : Option τ} {t u : τ} {pc : Pc}
    (ho : HolderOnlyBy t h h') (hu : u ≠ t) (hl : NLocalOk pshared h u pc) :
    NLocalOk pshared h' u pc := by
  cases pc with
  | idle => trivial
  | enter op => exact fun hop => (ho u hu).mp (hl hop)
  | nLock op sh | nSwap op sh | nWait op sh | nClock sh | nTry sh => exact hl
  | nDec sh | nStore sh => exact ⟨hl.1, (ho u hu).mp hl.2⟩
  | nWake sh => exact ⟨hl.1, fun he => hl.2 ((ho u hu).mpr he)⟩
  | _ => exact hl.elim

/-! ## One thread's step -/

/-- What happens to the hold in a step of `t`. -/
inductive HoldStep (t : τ) (h : Option τ) : Next → Option τ → Prop
  | goto {pc : Pc} : (∀ sh, pc ≠ .nWake sh) → HoldStep t h (.goto pc) h
  | sleep : HoldStep t h .sleep h
  | acquired {op : Op} : op ≠ .unlock → h = none → HoldStep t h (.ret op .ok) (some t)
  | busy {op : Op} : op ≠ .unlock → HoldStep t h (.ret op .ebusy) h
  | released : h = some t → HoldStep t h (.ret .unlock .ok) none
  | stored {sh : Word} : h = some t → HoldStep t h (.goto (.nWake sh)) none

theorem HoldStep.onlyBy {t : τ} {h h' : Option τ} {nx : Next} (hs : HoldStep t h nx h') :
    HolderOnlyBy t h h' := by
  intro u hu
  cases hs with
  | goto _ | sleep | busy _ => exact Iff.rfl
  | acquired _ hn => rw [hn]; simp [Ne.symm hu]
  | released he | stored he => rw [he]; simp [Ne.symm hu]

/-- What a step of `t` has to establish. -/
def NStepOk (pshared : Bool) (h : Option τ) (t : τ) (pc : Pc) (w' : Word) (nx : Next) : Prop :=
  ∃ (st' : NState) (h' : Option τ), w' = st'.word pshared ∧
    (st' = .unlocked ↔ h' = none) ∧ HoldStep t h nx h' ∧
    NLocalOk pshared h' t (nx.pc pc)

section OneThread

variable {pshared : Bool} {st : NState} {h : Option τ} {t : τ} {tid w' : Word} {pc : Pc}
  {nx : Next}

theorem nstepOk_goto (hfree : st = .unlocked ↔ h = none) {pc' : Pc}
    (hne : ∀ sh, pc' ≠ .nWake sh) (hl : NLocalOk pshared h t pc') :
    NStepOk pshared h t pc (st.word pshared) (.goto pc') :=
  ⟨st, h, rfl, hfree, .goto hne, hl⟩

/-- The compare-and-exchange from unlocked to locked. -/
theorem nstepOk_cmpxchg (hfree : st = .unlocked ↔ h = none) {sh : Word}
    (hsh : sh = sharedWord pshared) {op : Op} (hop : op ≠ .unlock) {fail : Next}
    (hs : some (bionicCmpxchg (sh ||| mutexStateBitsUnlocked)
      (sh ||| mutexStateBitsLockedUncontended) (st.word pshared) (.ret op .ok) fail) =
      some (w', nx))
    (hfail : NStepOk pshared h t pc (st.word pshared) fail) :
    NStepOk pshared h t pc w' nx := by
  subst hsh
  rcases bionicCmpxchg_cases (Option.some.inj hs) with ⟨hw, rfl, rfl⟩ | ⟨-, rfl, rfl⟩
  · have hst : st = .unlocked := NState.word_inj.mp hw
    exact ⟨.locked, some t, rfl, by simp, .acquired hop (hfree.mp hst), trivial⟩
  · exact hfail

theorem ndispatch_ok (hfree : st = .unlocked ↔ h = none) {op : Op}
    (hl : NLocalOk pshared h t (.enter op)) :
    NStepOk pshared h t pc (st.word pshared) (dispatch op tid (st.word pshared)) := by
  simp only [dispatch, NState.word_type, if_pos, NState.word_shared]
  cases op with
  | lock | lockTimeoutNp => exact nstepOk_goto hfree (by simp) ⟨by decide, rfl⟩
  | trylock => exact nstepOk_goto hfree (by simp) rfl
  | unlock => exact nstepOk_goto hfree (by simp) ⟨rfl, hl rfl⟩

/-- Every atomic step on a normal mutex moves the hold as it should. -/
theorem nstep_ok (hfree : st = .unlocked ↔ h = none) (hl : NLocalOk pshared h t pc)
    (hs : pc.step tid (st.word pshared) = some (w', nx)) : NStepOk pshared h t pc w' nx := by
  cases pc with
  | idle | nWake _ => cases hs
  | enter op =>
      obtain ⟨rfl, rfl⟩ := Prod.mk.inj (Option.some.inj hs)
      exact ndispatch_ok hfree hl
  | nLock op sh =>
      exact nstepOk_cmpxchg hfree hl.2 hl.1 hs (nstepOk_goto hfree (by simp) hl)
  | nSwap op sh =>
      obtain ⟨hop, rfl⟩ := hl
      obtain ⟨rfl, rfl⟩ := Prod.mk.inj (Option.some.inj hs)
      split
      · next hw =>
          have hst : st = .unlocked := NState.word_inj.mp hw
          exact ⟨.contended, some t, rfl, by simp, .acquired hop (hfree.mp hst), trivial⟩
      · next hw =>
          have hne : st ≠ .unlocked := fun he => hw (by rw [he]; rfl)
          have hsome : h ≠ none := fun he => hne (hfree.mpr he)
          split
          · exact ⟨.contended, h, rfl, by simp [hsome], .goto (by simp), rfl⟩
          · exact ⟨.contended, h, rfl, by simp [hsome], .goto (by simp), hop, rfl⟩
  | nClock sh =>
      obtain ⟨rfl, rfl⟩ := Prod.mk.inj (Option.some.inj hs)
      exact nstepOk_goto hfree (by simp) ⟨by decide, hl⟩
  | nWait op sh =>
      obtain ⟨rfl, rfl⟩ := Prod.mk.inj (Option.some.inj hs)
      split
      · exact ⟨st, h, rfl, hfree, .sleep, hl⟩
      · exact nstepOk_goto hfree (by simp) hl
  | nTry sh =>
      exact nstepOk_cmpxchg hfree hl (by decide) hs
        ⟨st, h, rfl, hfree, .busy (by decide), trivial⟩
  | nDec sh =>
      obtain ⟨rfl, rfl⟩ := hl
      obtain ⟨rfl, rfl⟩ := Prod.mk.inj (Option.some.inj hs)
      cases st with
      | unlocked => exact absurd (hfree.mp rfl) (by simp)
      | locked =>
          have heq : ¬ NState.locked.word pshared ≠
              sharedWord pshared ||| mutexStateBitsLockedUncontended := not_not.mpr rfl
          rw [NState.word_dec_locked, if_neg heq]
          exact ⟨.unlocked, none, rfl, by simp, .released rfl, trivial⟩
      | contended =>
          have hne : NState.contended.word pshared ≠
              sharedWord pshared ||| mutexStateBitsLockedUncontended := by
            intro he
            have hst := (@NState.word_inj pshared .contended .locked).mp he
            cases hst
          rw [NState.word_dec_contended, if_pos hne]
          exact ⟨.locked, some t, rfl, by simp, .goto (by simp), rfl, rfl⟩
  | nStore sh =>
      obtain ⟨rfl, rfl⟩ := hl
      obtain ⟨rfl, rfl⟩ := Prod.mk.inj (Option.some.inj hs)
      exact ⟨.unlocked, none, NState.word_unlocked.symm, by simp, .stored rfl, rfl, by simp⟩
  | _ => exact hl.elim

/-! What a program point says about the thread that is at it. -/

theorem NLocalOk.of_wakesShared {pc : Pc} {sh : Bool} (hl : NLocalOk pshared h t pc)
    (hw : pc.wakesShared = some sh) : pc = .nWake (sharedWord pshared) := by
  cases pc <;> simp only [Pc.wakesShared, reduceCtorEq] at hw
  · rw [hl.1]
  · exact hl.elim

theorem NLocalOk.of_afterWait {pc pc' : Pc} (hl : NLocalOk pshared h t pc)
    (hw : pc.afterWait = some pc') :
    ∃ op, op ≠ .unlock ∧ pc = .nWait op (sharedWord pshared) ∧
      pc' = .nSwap op (sharedWord pshared) := by
  cases pc <;> simp only [Pc.afterWait, reduceCtorEq] at hw
  · rw [hl.2, Option.some.injEq] at hw
    exact ⟨_, hl.1, by rw [hl.2], hw.symm⟩
  · exact hl.elim

theorem NLocalOk.of_isClock {pc : Pc} (hl : NLocalOk pshared h t pc) (hc : pc.isClock = true) :
    ∃ sh, pc = .nClock sh := by
  cases pc <;> simp only [Pc.isClock, Bool.false_eq_true] at hc
  · exact ⟨_, rfl⟩
  · exact hl.elim
  · exact hl.elim

end OneThread

/-- At the futex wait of a normal mutex. -/
def Pc.isNWait : Pc → Bool
  | .nWait _ _ => true
  | _ => false

/-- In the contended loop, with the next swap of state 2 still to come. -/
def Pc.isNSwap : Pc → Bool
  | .nSwap _ _ => true
  | _ => false

/-- In `unlock`, with the store of 0 or the futex wake still to come. -/
def Pc.isNUnlocking : Pc → Bool
  | .nStore _ | .nWake _ => true
  | _ => false

theorem Pc.isNWait_iff {pc : Pc} : pc.isNWait = true ↔ ∃ op sh, pc = .nWait op sh := by
  cases pc <;> simp [Pc.isNWait]

theorem Pc.isNSwap_iff {pc : Pc} : pc.isNSwap = true ↔ ∃ op sh, pc = .nSwap op sh := by
  cases pc <;> simp [Pc.isNSwap]

theorem Pc.isNUnlocking_iff {pc : Pc} :
    pc.isNUnlocking = true ↔ (∃ sh, pc = .nStore sh) ∨ ∃ sh, pc = .nWake sh := by
  cases pc <;> simp [Pc.isNUnlocking]

/-- A word in state 2 stays so, or its holder is in `unlock` with the store and
the wake still to come. -/
theorem nstep_marked {pshared : Bool} {h : Option τ} {t : τ} {w tid : Word} {pc : Pc}
    {nx : Next} (hl : NLocalOk pshared h t pc)
    (hs : pc.step tid (NState.contended.word pshared) = some (w, nx)) :
    w = NState.contended.word pshared ∨ (nx.pc pc).isNUnlocking = true := by
  have hne : ∀ {sh : Word}, sh = sharedWord pshared →
      ¬ NState.contended.word pshared = sh ||| mutexStateBitsUnlocked := by
    rintro sh rfl he
    have hst := (@NState.word_inj pshared .contended .unlocked).mp he
    cases hst
  cases pc with
  | idle | nWake _ => cases hs
  | enter op | nClock sh | nWait op sh =>
      obtain ⟨rfl, -⟩ := Prod.mk.inj (Option.some.inj hs)
      exact .inl rfl
  | nLock op sh =>
      rw [Pc.step, Option.some.injEq, bionicCmpxchg, if_neg (hne hl.2)] at hs
      exact .inl (Prod.mk.inj hs).1.symm
  | nTry sh =>
      rw [Pc.step, Option.some.injEq, bionicCmpxchg, if_neg (hne hl)] at hs
      exact .inl (Prod.mk.inj hs).1.symm
  | nSwap op sh =>
      obtain ⟨rfl, -⟩ := Prod.mk.inj (Option.some.inj hs)
      rw [hl.2]
      exact .inl rfl
  | nDec sh =>
      obtain ⟨-, rfl⟩ := Prod.mk.inj (Option.some.inj hs)
      have hne1 : NState.contended.word pshared ≠ sh ||| mutexStateBitsLockedUncontended := by
        rw [hl.1]
        intro he
        have hst := (@NState.word_inj pshared .contended .locked).mp he
        cases hst
      rw [if_pos hne1]
      exact .inr rfl
  | nStore sh =>
      obtain ⟨-, rfl⟩ := Prod.mk.inj (Option.some.inj hs)
      exact .inr rfl
  | _ => exact hl.elim


/-! ## All threads together -/

variable [DecidableEq τ]

/-- The invariant of a normal mutex: one of three words, unlocked exactly when
nobody holds it, and the holder is the thread whose returned calls say so. -/
structure NormInv (pshared : Bool) (s : State τ) (st : NState) (holder : Option τ) : Prop where
  word : s.word = st.word pshared
  free : st = .unlocked ↔ holder = none
  locals : ∀ t, NLocalOk pshared holder t (s.pc t)
  books : Books s fun t => if holder = some t then 1 else 0

section Run

variable {cfg : Config τ} {pshared : Bool} {s s' : State τ} {st : NState} {h : Option τ}
  {t : τ}

theorem NormInv.init (pshared : Bool) :
    NormInv pshared (Mutex.init .normal pshared : State τ) .unlocked none where
  word := init_normal
  free := by simp
  locals _ := trivial
  books _ := rfl

theorem NormInv.holds_iff (hinv : NormInv pshared s st h) (t : τ) : Holds s t ↔ h = some t := by
  have hc := hinv.books t
  have hl := hinv.locals t
  rw [Holds]
  by_cases ho : (s.pc t).owes = 0
  · rw [ho] at hc ⊢
    by_cases hh : h = some t
    · simp only [hh, if_true] at hc
      simp only [hh, and_true, iff_true]
      omega
    · simp only [hh, if_false] at hc
      simp only [hh, and_true, iff_false]
      omega
  · have hne : h ≠ some t := by
      cases hp : s.pc t <;> rw [hp] at hl ho <;>
        first | exact absurd rfl ho | exact hl.2 | exact hl.elim
    simp [ho, hne]

/-- One thread moves, the mutex stays, no call returns. -/
theorem NormInv.move (hinv : NormInv pshared s st h) {pc : Pc} (hw : s'.word = s.word)
    (hlog : s'.log = s.log) (hpc : ∀ u, s'.pc u = if u = t then pc else s.pc u)
    (hl : NLocalOk pshared h t pc) (howes : pc.owes = (s.pc t).owes) :
    NormInv pshared s' st h where
  word := by rw [hw]; exact hinv.word
  free := hinv.free
  locals u := by
    rw [hpc]
    split
    · next hu => rw [hu]; exact hl
    · exact hinv.locals u
  books := hinv.books.move hlog hpc howes

/-- One thread returns with a result that leaves the mutex alone and pays what
the thread owes. -/
theorem NormInv.finish (hinv : NormInv pshared s st h) {op : Op} {r : Ret}
    (hw : s'.word = s.word) (hlog : s'.log = (t, op, r) :: s.log)
    (hpc : ∀ u, s'.pc u = if u = t then .idle else s.pc u)
    (hgain : lockGain op r + (s.pc t).owes = unlockGain op r) :
    NormInv pshared s' st h where
  word := by rw [hw]; exact hinv.word
  free := hinv.free
  locals u := by
    rw [hpc]
    split
    · trivial
    · exact hinv.locals u
  books := hinv.books.finish hlog hpc hgain

theorem HoldStep.gain {nx : Next} {pc : Pc} {h' : Option τ} (hs : HoldStep t h nx h')
    (hl : NLocalOk pshared h' t (nx.pc pc)) (howes : pc.owes = 0) :
    nx.gains.1 + (if h = some t then 1 else 0) =
      nx.gains.2 + (if h' = some t then 1 else 0) + (nx.pc pc).owes := by
  cases hs with
  | @goto pc' hne =>
      have howes' : ((Next.goto pc').pc pc).owes = 0 := by
        cases pc' <;> first | rfl | exact absurd rfl (hne _) | exact hl.elim
      rw [howes', Next.gains]
      omega
  | sleep =>
      rw [Next.pc, howes, Next.gains]
      omega
  | acquired hop hn => simp [hn, hop, Next.gains, lockGain, unlockGain, Next.pc, Pc.owes]
  | busy hop => simp [Next.gains, lockGain, unlockGain, Next.pc, Pc.owes]
  | released he | stored he => simp [he, Next.gains, lockGain, unlockGain, Next.pc, Pc.owes]

theorem NormInv.advance (hinv : NormInv pshared s st h) {w : Word} {nx : Next}
    (hs : (s.pc t).step (cfg.tid t) s.word = some (w, nx)) :
    ∃ st' h', NormInv pshared (s.advance t w nx) st' h' ∧ HoldStep t h nx h' := by
  rw [hinv.word] at hs
  obtain ⟨st', h', hw, hfree, hstep, hl⟩ := nstep_ok hinv.free (hinv.locals t) hs
  have honly := hstep.onlyBy
  have howes : (s.pc t).owes = 0 := by
    cases hp : s.pc t <;> first | rfl | (rw [hp] at hs; cases hs)
  refine ⟨st', h', ⟨by rw [advance_word]; exact hw, hfree, fun u => ?_, ?_⟩, hstep⟩
  · rw [advance_pc]
    split
    · next hu => rw [hu]; exact hl
    · next hu => exact (hinv.locals u).onlyBy honly hu
  · refine hinv.books.advance howes (fun u hu => ?_) (hstep.gain hl howes)
    simp only [honly u hu]

/-- Every event keeps the invariant, and one that returns `EBUSY` leaves the
holder as it was. -/
theorem NormInv.fires (hinv : NormInv pshared s st h) {e : Event τ} (hok : HolderUnlocks s e)
    (hf : Fires cfg s e s') :
    ∃ st' h', NormInv pshared s' st' h' ∧
      ∀ t op, s'.log = (t, op, .ebusy) :: s.log → h' = h := by
  cases hf with
  | @call t op hpc =>
      refine ⟨st, h, hinv.move rfl rfl (setPc_pc s t · _) ?_ (by rw [hpc]; rfl),
        fun _ _ _ => rfl⟩
      rintro rfl
      exact (hinv.holds_iff t).mp hok
  | @step t w nx hq hst =>
      obtain ⟨st', h', hinv', hstep⟩ := hinv.advance hst
      refine ⟨st', h', hinv', fun t' op hlog => ?_⟩
      cases hstep with
      | goto _ | sleep | busy _ => rfl
      | stored _ => exact absurd (congrArg List.length hlog) (by simp [State.advance])
      | acquired _ _ | released _ =>
          injection hlog with hhd _
          injection hhd with _ hhd
          injection hhd with _ hr
          cases hr
  | @expire t hq hc =>
      obtain ⟨sh, hpc⟩ := (hinv.locals t).of_isClock hc
      exact ⟨st, h, hinv.finish rfl rfl (ret_pc s t · _ _) (by rw [hpc]; rfl), fun _ _ _ => rfl⟩
  | @wakeNone t sh hsh hno =>
      have hpc := (hinv.locals t).of_wakesShared hsh
      exact ⟨st, h, hinv.finish rfl rfl (ret_pc s t · _ _) (by rw [hpc]; rfl), fun _ _ _ => rfl⟩
  | @wakeSome t u sh pc hsh haw hq hkey =>
      have hpc := (hinv.locals t).of_wakesShared hsh
      obtain ⟨op, hop, hwait, rfl⟩ := (hinv.locals u).of_afterWait haw
      have htu : t ≠ u := by
        rintro rfl
        rw [hpc] at hwait
        cases hwait
      have hmid : NormInv pshared (s.resume u (.nSwap op (sharedWord pshared))) st h :=
        hinv.move rfl rfl (resume_pc s u · _) ⟨hop, rfl⟩ (by rw [hwait]; rfl)
      have hpc' : (s.resume u (.nSwap op (sharedWord pshared))).pc t =
          .nWake (sharedWord pshared) := by
        rw [resume_pc, if_neg htu, hpc]
      exact ⟨st, h, hmid.finish rfl rfl (ret_pc _ t · _ _) (by rw [hpc']; rfl),
        fun _ _ _ => rfl⟩
  | @interrupt u pc haw hq | @timeout u pc haw hq =>
      obtain ⟨op, hop, hwait, rfl⟩ := (hinv.locals u).of_afterWait haw
      exact ⟨st, h, hinv.move rfl rfl (resume_pc s u · _) ⟨hop, rfl⟩ (by rw [hwait]; rfl),
        fun _ _ _ => rfl⟩
  | @timeoutBusy u op m mv pc hwait hq =>
      have hl := hinv.locals u
      rw [hwait] at hl
      exact hl.elim

theorem normInv_reachable {es : List (Event τ)}
    (hrun : Run (step cfg) HolderUnlocks (Mutex.init .normal pshared) es s) :
    ∃ st h, NormInv pshared s st h := by
  refine hrun.invariant (I := fun s => ∃ st h, NormInv pshared s st h)
    ⟨.unlocked, none, NormInv.init pshared⟩ ?_
  rintro s e s' ⟨st, h, hinv⟩ hok hs
  obtain ⟨st', h', hinv', -⟩ := hinv.fires hok (step_fires hs)
  exact ⟨st', h', hinv'⟩

/-- Mutual exclusion. In every state of every run at most one thread holds
the mutex, the word is the shared flag with one of the three states, it is
unlocked exactly when nobody holds the mutex, and an event in which a call
returns `EBUSY` makes no thread a holder. -/
theorem normal_mutual_exclusion {es : List (Event τ)}
    (hrun : Run (step cfg) HolderUnlocks (Mutex.init .normal pshared) es s) :
    (∀ t u, Holds s t → Holds s u → t = u) ∧
    (∃ st : NState, s.word = sharedWord pshared ||| st.bits ∧
      (st = .unlocked ↔ ∀ t, ¬ Holds s t)) ∧
    ∀ e s' t op, HolderUnlocks s e → step cfg s e = some s' →
      s'.log = (t, op, .ebusy) :: s.log → ∀ u, Holds s' u ↔ Holds s u := by
  obtain ⟨st, h, hinv⟩ := normInv_reachable hrun
  refine ⟨?_, ⟨st, hinv.word, ?_⟩, ?_⟩
  · intro t u ht hu
    rw [hinv.holds_iff] at ht hu
    rw [ht] at hu
    exact Option.some.inj hu
  · rw [hinv.free]
    constructor
    · intro hn t ht
      rw [hinv.holds_iff, hn] at ht
      cases ht
    · intro hno
      cases h with
      | none => rfl
      | some t => exact absurd ((hinv.holds_iff t).mpr rfl) (hno t)
  · intro e s' t op hok hs hlog u
    obtain ⟨st', h', hinv', hsame⟩ := hinv.fires hok (step_fires hs)
    rw [hinv'.holds_iff, hinv.holds_iff, hsame t op hlog]

/-! ## Nobody is orphaned on the wait queue -/

/-- How normal mutexes hand the duty to wake somebody around. -/
def normalDiscipline (pshared : Bool) : Discipline where
  waits := Pc.isNWait
  awake := Pc.isNSwap
  waking := Pc.isNUnlocking
  marked w := w == NState.contended.word pshared
  idle_awake := rfl
  idle_waking := rfl
  idle_waits := rfl
  waits_waking hw := by obtain ⟨op, sh, rfl⟩ := Pc.isNWait_iff.mp hw; rfl
  waits_wakes hw := by obtain ⟨op, sh, rfl⟩ := Pc.isNWait_iff.mp hw; nofun
  waits_resume hw hres := by
    obtain ⟨op, sh, rfl⟩ := Pc.isNWait_iff.mp hw
    rw [Pc.afterWait, Option.some.injEq] at hres
    rw [← hres]
    rfl

/-- A thread's own step keeps the duty. -/
theorem NormInv.sleep_advance (hinv : NormInv pshared s st h)
    (hsl : SleepInv (normalDiscipline pshared) s) {w : Word} {nx : Next} (hnq : t ∉ s.queue)
    (hs : (s.pc t).step (cfg.tid t) s.word = some (w, nx)) :
    SleepInv (normalDiscipline pshared) (s.advance t w nx) := by
  have hl := hinv.locals t
  refine hsl.advance hnq ?_ ?_
  · rintro rfl
    cases hp : s.pc t <;> rw [hp] at hs hl <;> try exact hl.elim
    case nWait op sh =>
      rw [Pc.step, Option.some.injEq, Prod.mk.injEq] at hs
      obtain ⟨rfl, hif⟩ := hs
      split at hif
      · next hw =>
          refine ⟨rfl, beq_iff_eq.mpr ?_⟩
          rw [hw, hl.2]
          rfl
      · cases hif
    case enter op =>
      obtain ⟨st', h', -, -, hstep, -⟩ := nstep_ok hinv.free hl (hinv.word ▸ hs)
      rw [Pc.step, Option.some.injEq, Prod.mk.injEq, hinv.word] at hs
      simp only [dispatch, NState.word_type, if_pos] at hs
      cases op <;> simp at hs
    all_goals
      simp only [Pc.step, bionicCmpxchg, Option.some.injEq, reduceCtorEq] at hs
      repeat' (split at hs)
      all_goals simp at hs
  · rintro (hmark | hsw | hun)
    · have hw : s.word = NState.contended.word pshared := beq_iff_eq.mp hmark
      rw [hw] at hs
      rcases nstep_marked hl hs with hw' | hwk
      · exact .inl (beq_iff_eq.mpr hw')
      · exact .inr (.inr hwk)
    · obtain ⟨op, sh, hp⟩ := Pc.isNSwap_iff.mp hsw
      rw [hp] at hs hl
      obtain ⟨rfl, -⟩ := Prod.mk.inj (Option.some.inj hs)
      rw [hl.2]
      exact .inl (beq_iff_eq.mpr rfl)
    · rcases Pc.isNUnlocking_iff.mp hun with ⟨sh, hp⟩ | ⟨sh, hp⟩
      · rw [hp] at hs
        obtain ⟨-, rfl⟩ := Prod.mk.inj (Option.some.inj hs)
        exact .inr (.inr rfl)
      · rw [hp] at hs
        cases hs

/-- A wake that finds nobody means that nobody sleeps. -/
theorem NormInv.queue_nil (hinv : NormInv pshared s st h)
    (hsl : SleepInv (normalDiscipline pshared) s) {sh : Bool}
    (hsh : (s.pc t).wakesShared = some sh)
    (hno : ∀ u ∈ s.queue, (s.pc u).waitsShared ≠ sh) : s.queue = [] := by
  have hpc := (hinv.locals t).of_wakesShared hsh
  rw [hpc, Pc.wakesShared, Option.some.injEq] at hsh
  apply List.eq_nil_iff_forall_not_mem.mpr
  intro u hu
  obtain ⟨op, shared, hp⟩ := Pc.isNWait_iff.mp (hsl.asleep u hu)
  have hl := hinv.locals u
  rw [hp] at hl
  refine hno u hu ?_
  rw [hp, Pc.waitsShared, hl.2, hsh]

/-- An expired deadline costs nothing here: the timed loop swaps state 2 in
before every look at the clock, so a thread at its clock check carries no
duty. -/
theorem NormInv.expiresSafely (hinv : NormInv pshared s st h)
    (hsl : SleepInv (normalDiscipline pshared) s) {e : Event τ} (hf : Fires cfg s e s') :
    ExpiresSafely (normalDiscipline pshared) s e := by
  cases hf with
  | @expire t hq hc =>
      obtain ⟨sh, hpc⟩ := (hinv.locals t).of_isClock hc
      refine hsl.handsOver ?_
      rw [Carries, hpc]
      rintro (⟨-, haw⟩ | hwk)
      · cases haw
      · cases hwk
  | _ => trivial

/-- No lost wake-up. In every state of every run in which some thread sleeps
on the mutex, the word is in state 2, or some thread is inside `unlock` with
its store of 0 or its wake still to come, or some awake thread is in the
contended loop with its next swap of state 2 still to come. So the mutex is
never unlocked with a sleeper on it and every awake thread outside. -/
theorem normal_no_lost_wakeup {es : List (Event τ)}
    (hrun : Run (step cfg) HolderUnlocks (Mutex.init .normal pshared) es s) :
    (s.queue ≠ [] →
      s.word = sharedWord pshared ||| mutexStateBitsLockedContended ∨
      (∃ t sh, s.pc t = .nStore sh ∨ s.pc t = .nWake sh) ∨
      ∃ t op sh, t ∉ s.queue ∧ s.pc t = .nSwap op sh) ∧
    ¬ (s.word = pthreadMutexInit .normal pshared ∧ s.queue ≠ [] ∧
      ∀ t, t ∉ s.queue → s.pc t = .idle) := by
  have hinv : (∃ st h, NormInv pshared s st h) ∧ SleepInv (normalDiscipline pshared) s := by
    refine hrun.invariant
      (I := fun s => (∃ st h, NormInv pshared s st h) ∧ SleepInv (normalDiscipline pshared) s)
      ⟨⟨.unlocked, none, NormInv.init pshared⟩, SleepInv.init _ _ pshared⟩ ?_
    rintro s e s' ⟨⟨st, h, hn⟩, hsl⟩ hok hstep
    have hf := step_fires hstep
    obtain ⟨st', h', hn', -⟩ := hn.fires hok hf
    refine ⟨⟨st', h', hn'⟩, hsl.fires (hn.expiresSafely hsl hf) hf ?_ ?_⟩
    · exact fun t w nx hnq hst => hn.sleep_advance hsl hnq hst
    · exact fun t sh hsh hno => hn.queue_nil hsl hsh hno
  obtain ⟨-, hsl⟩ := hinv
  constructor
  · intro hne
    rcases hsl.duty with hnil | hmark | ⟨u, ⟨hnq, hsw⟩ | hun⟩
    · exact absurd hnil hne
    · exact .inl (beq_iff_eq.mp hmark)
    · obtain ⟨op, sh, hp⟩ := Pc.isNSwap_iff.mp hsw
      exact .inr (.inr ⟨u, op, sh, hnq, hp⟩)
    · rcases Pc.isNUnlocking_iff.mp hun with ⟨sh, hp⟩ | ⟨sh, hp⟩
      · exact .inr (.inl ⟨u, sh, .inl hp⟩)
      · exact .inr (.inl ⟨u, sh, .inr hp⟩)
  · rintro ⟨hword, hne, hidle⟩
    have hmark : (normalDiscipline pshared).marked s.word = false := by
      rw [hword]
      cases pshared <;> decide
    obtain ⟨u, hnq, hin⟩ := hsl.someone_inside hne hmark
    exact hin (hidle u hnq)

end Run

/-- A normal mutex has no use for tids. -/
def twoCallers : Config Nat where
  tid _ := 0#32
  waitTimedOut := -etimedout

/-- Thread 0 locks a shared mutex, thread 1 fails to get it with `trylock` and
then sleeps in `lock`. -/
def lockThenSleep : List (Event Nat) :=
  [.call 0 .lock, .step 0, .step 0, .call 1 .trylock, .step 1, .step 1,
    .call 1 .lock, .step 1, .step 1, .step 1, .step 1]

theorem normal_mutual_exclusion_held :
    ∃ s, Run (step twoCallers) HolderUnlocks (Mutex.init .normal true) lockThenSleep s ∧
      Holds s 0 ∧ s.log = [(1, .trylock, .ebusy), (0, .lock, .ok)] ∧
      ∀ t u, Holds s t → Holds s u → t = u := by
  have hsome : (runEvents (step twoCallers) (Mutex.init .normal true) lockThenSleep).isSome := by
    decide
  have hrun : Run (step twoCallers) HolderUnlocks (Mutex.init .normal true) lockThenSleep _ :=
    Run.of_runEvents (by simp [lockThenSleep, HolderUnlocks]) (Option.some_get hsome).symm
  have hholds : Holds (Option.get _ hsome) 0 := ⟨Nat.one_pos, rfl⟩
  exact ⟨_, hrun, hholds, rfl, (normal_mutual_exclusion hrun).1⟩

theorem normal_no_lost_wakeup_asleep :
    ∃ s, Run (step twoCallers) HolderUnlocks (Mutex.init .normal true) lockThenSleep s ∧
      s.queue = [1] ∧ s.word = 0x00002002#32 ∧
      ¬ (s.word = pthreadMutexInit .normal true ∧ s.queue ≠ [] ∧
        ∀ t, t ∉ s.queue → s.pc t = .idle) := by
  have hsome : (runEvents (step twoCallers) (Mutex.init .normal true) lockThenSleep).isSome := by
    decide
  have hrun : Run (step twoCallers) HolderUnlocks (Mutex.init .normal true) lockThenSleep _ :=
    Run.of_runEvents (by simp [lockThenSleep, HolderUnlocks]) (Option.some_get hsome).symm
  exact ⟨_, hrun, rfl, rfl, (normal_no_lost_wakeup hrun).2⟩

end Pisces.Mutex
