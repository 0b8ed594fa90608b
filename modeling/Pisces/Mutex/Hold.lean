import Pisces.Mutex.Recursive
import Pisces.Mutex.Normal

/-!
# Who holds a mutex of any type

The word of a normal mutex does not say who holds it, and `unlock` of a normal
mutex does not ask who calls it. So the hold is kept beside the state, as a
history variable: it begins with the step in which an acquire succeeds and it
ends with the step in which an `unlock`, whoever called it, makes the word
unlocked. A recursive mutex is held at a depth.

For a recursive or errorcheck mutex the hold is what its word says, in every run.
For a normal one it is what the word says as long as a thread that unlocks the
mutex without holding it is left alone meanwhile (`Orderly`). Such an `unlock`
decrements a word that it does not own, and until it has put the word right
again another thread would read an owner and a type that are not there.
-/

namespace Pisces.Mutex

open OwnedLock Pisces.Lib

variable {τ : Type}

/-- The state, and as history who holds the mutex and how deep. -/
structure Tracked (τ : Type) where
  state : State τ
  hold : Option (τ × Nat)

def Tracked.init (ty : MutexType) (pshared : Bool) : Tracked τ := ⟨Mutex.init ty pshared, none⟩

def Tracked.holder (x : Tracked τ) : Option τ := x.hold.map Prod.fst

/-- In an `unlock` of a normal mutex that has not let go of it yet. -/
def Pc.isNReleasing : Pc → Bool
  | .enter .unlock | .nDec _ | .nStore _ => true
  | _ => false

/-- `u` is unlocking a mutex that it does not hold. -/
def Stranger (x : Tracked τ) (u : τ) : Prop :=
  (x.state.pc u).isNReleasing = true ∧ x.holder ≠ some u

/-- A sleeper comes back by itself. -/
def Event.isReturn : Event τ → Bool
  | .interrupt _ | .timeout _ => true
  | _ => false

/-- A thread that does not hold a normal mutex calls `unlock` only while no
other `unlock` is letting go, and until it has let go itself nobody else does
anything but come back from a sleep. -/
def Orderly (ty : MutexType) (x : Tracked τ) (e : Event τ) : Prop :=
  ty = .normal →
    (∀ u, u ≠ e.actor → Stranger x u → e.isReturn = true) ∧
    ∀ t, e = .call t .unlock → x.holder ≠ some t → ∀ u, (x.state.pc u).isNReleasing = false

/-- Calls are made one after the other: whoever else is in a call waits there. -/
def OneByOne (x : Tracked τ) (e : Event τ) : Prop :=
  ∀ u, u ≠ e.actor → x.state.pc u = .idle ∨ (x.state.pc u).afterWait ≠ none

/-! ## What a normal mutex keeps to -/

section

variable {pshared : Bool} {x : Tracked τ}

/-- The word is one of the three of a normal mutex, and unlocked exactly if
nobody holds it. -/
def Shows (pshared : Bool) (x : Tracked τ) : Prop :=
  ∃ st : NState, x.state.word = st.word pshared ∧ (st = .unlocked ↔ x.holder = none)

/-- A normal mutex that nobody unlocks without holding it. -/
structure Steady (pshared : Bool) (x : Tracked τ) : Prop where
  shows : Shows pshared x
  locals : ∀ t, NLocalOk pshared x.holder t (x.state.pc t)
  flat : ∀ t d, x.hold = some (t, d) → d = 1

/-- One that `u` is unlocking and does not hold. The others rely on nothing that
the hold could change. -/
structure Intruded (pshared : Bool) (x : Tracked τ) (u : τ) : Prop where
  stranger : x.holder ≠ some u
  others : ∀ t, t ≠ u → NLocalOk pshared none t (x.state.pc t)
  flat : ∀ t d, x.hold = some (t, d) → d = 1
  own : Shows pshared x ∧ (x.state.pc u = .enter .unlock ∨
      x.state.pc u = .nDec (sharedWord pshared)) ∨
    x.state.pc u = .nStore (sharedWord pshared)

theorem Steady.init (pshared : Bool) : Steady pshared (.init .normal pshared : Tracked τ) where
  shows := ⟨.unlocked, init_normal, by simp [Tracked.init, Tracked.holder]⟩
  locals _ := trivial
  flat _ _ hno := by cases hno

/-- A thread that is not letting go of the mutex does not rely on the hold. -/
theorem NLocalOk.without {h : Option τ} {t : τ} {pc : Pc} (hl : NLocalOk pshared h t pc)
    (hpc : pc.isNReleasing = false) : NLocalOk pshared none t pc := by
  cases pc with
  | enter op =>
      cases op with
      | unlock => cases hpc
      | lock | trylock | lockTimeoutNp => exact fun hop => by cases hop
  | nDec _ | nStore _ => cases hpc
  | nWake sh => exact ⟨hl.1, by simp⟩
  | _ => exact hl

/-- A thread that comes back from its wait goes on with the swap. -/
theorem NLocalOk.returned {h : Option τ} {t : τ} {pc pc' : Pc} (hl : NLocalOk pshared h t pc)
    (haw : pc.afterWait = some pc') : NLocalOk pshared h t pc' := by
  obtain ⟨op, hop, -, rfl⟩ := hl.of_afterWait haw
  exact ⟨hop, rfl⟩

theorem Pc.of_isNReleasing {pc : Pc} (h : pc.isNReleasing = true) :
    pc.isClock = false ∧ pc.wakesShared = none ∧ pc.afterWait = none := by
  cases pc with
  | enter _ | nDec _ | nStore _ => exact ⟨rfl, rfl, rfl⟩
  | _ => cases h

/-- A thread that is in no call, or waits in one, is not unlocking anything. -/
theorem Pc.not_isNReleasing {pc : Pc} (h : pc = .idle ∨ pc.afterWait ≠ none) :
    pc.isNReleasing = false := by
  rcases h with rfl | hwait
  · rfl
  · by_contra hrel
    exact hwait (Pc.of_isNReleasing (by simpa using hrel)).2.2

theorem Intruded.releasing {u : τ} (hI : Intruded pshared x u) :
    (x.state.pc u).isNReleasing = true := by
  rcases hI.own with ⟨-, hpc | hpc⟩ | hpc <;> rw [hpc] <;> rfl

theorem holder_eq_none : x.holder = none ↔ x.hold = none := by
  rw [Tracked.holder, Option.map_eq_none_iff]

end

/-! ## The hold along a run -/

variable [DecidableEq τ]

/-- The hold after a step of `t`. -/
def holdAfter (t : τ) (h : Option (τ × Nat)) : Next → Option (τ × Nat)
  | .ret .unlock .ok =>
      match h with
      | some (u, d + 2) => some (u, d + 1)
      | _ => none
  | .ret _ .ok =>
      match h with
      | some (u, d) => if u = t then some (t, d + 1) else some (t, 1)
      | none => some (t, 1)
  -- the word has been made unlocked, and what is left is to wake a sleeper
  | .goto (.wake _) | .goto (.nWake _) => none
  | _ => h

def Tracked.holdNext (cfg : Config τ) (x : Tracked τ) : Event τ → Option (τ × Nat)
  | .step t =>
      match (x.state.pc t).step (cfg.tid t) x.state.word with
      | some (_, nx) => holdAfter t x.hold nx
      | none => x.hold
  | _ => x.hold

def track (cfg : Config τ) (x : Tracked τ) (e : Event τ) : Option (Tracked τ) :=
  (step cfg x.state e).map fun s => ⟨s, x.holdNext cfg e⟩

/-- Where an event that is no thread's own step can take a thread: to a call, back
from one, or past its wait. Only such a step changes the word. -/
theorem Fires.moves {cfg : Config τ} {s s' : State τ} {e : Event τ} (hf : Fires cfg s e s')
    (hno : ∀ t, e ≠ .step t) :
    s'.word = s.word ∧ ∀ u, s'.pc u = s.pc u ∨ s'.pc u = .idle ∨
      (∃ op, e = .call u op ∧ s'.pc u = .enter op) ∨ (s.pc u).afterWait = some (s'.pc u) := by
  cases hf with
  | @call t op hpc =>
      refine ⟨rfl, fun u => ?_⟩
      by_cases hu : u = t
      · subst hu
        exact .inr (.inr (.inl ⟨op, rfl, by simp⟩))
      · exact .inl (by simp [hu])
  | step _ _ => exact absurd rfl (hno _)
  | @expire t _ _ | @wakeNone t _ _ _ =>
      refine ⟨rfl, fun u => ?_⟩
      by_cases hu : u = t <;> simp [hu]
  | @wakeSome t v sh pc _ haw _ _ =>
      refine ⟨rfl, fun u => ?_⟩
      by_cases hu : u = t
      · simp [hu]
      · by_cases hv : u = v
        · subst hv
          simp [hu, haw]
        · simp [hu, hv]
  | @interrupt v pc haw _ | @timeout v pc haw _ =>
      refine ⟨rfl, fun u => ?_⟩
      by_cases hu : u = v
      · subst hu
        simp [haw]
      · simp [hu]
  | @timeoutBusy v _ _ _ _ _ _ =>
      refine ⟨rfl, fun u => ?_⟩
      by_cases hu : u = v <;> simp [hu]

section

variable {cfg : Config τ} {ty : MutexType} {pshared : Bool} {x x' : Tracked τ} {e : Event τ}

theorem track_fires (h : track cfg x e = some x') :
    Fires cfg x.state e x'.state ∧ x'.hold = x.holdNext cfg e := by
  obtain ⟨s, hs, rfl⟩ := Option.map_eq_some_iff.mp h
  exact ⟨step_fires hs, rfl⟩

/-- Calls made one after the other keep the promise. -/
theorem OneByOne.orderly (h : OneByOne x e) (hstep : track cfg x e = some x') :
    Orderly ty x e := by
  have hothers : ∀ u, u ≠ e.actor → (x.state.pc u).isNReleasing = false :=
    fun u hu => Pc.not_isNReleasing (h u hu)
  intro _
  constructor
  · intro u hu hstranger
    rw [Stranger, hothers u hu] at hstranger
    exact absurd hstranger.1 (by decide)
  · rintro t rfl _ u
    by_cases hu : u = t
    · subst hu
      obtain ⟨hf, -⟩ := track_fires hstep
      generalize x'.state = s' at hf
      cases hf with
      | call hpc => rw [hpc]; rfl
    · exact hothers u hu

/-- So a sequence of calls is among the runs of a mutex of any type, and where
it ends nobody is in the middle of an `unlock`. -/
theorem orderly_of_oneByOne {es : List (Event τ)}
    (hrun : Run (track cfg) OneByOne (.init ty pshared) es x)
    (hend : ∀ u, x.state.pc u = .idle ∨ (x.state.pc u).afterWait ≠ none) :
    Run (track cfg) (Orderly ty) (.init ty pshared) es x ∧ ∀ u, ¬ Stranger x u := by
  refine ⟨hrun.imp fun _ _ _ hone hstep => hone.orderly hstep, fun u hstranger => ?_⟩
  rw [Stranger, Pc.not_isNReleasing (hend u)] at hstranger
  exact absurd hstranger.1 (by decide)

/-- Only a thread's own step can change the hold. -/
theorem holdNext_of_not_step (h : ∀ t, e ≠ .step t) : x.holdNext cfg e = x.hold := by
  cases e with
  | step t => exact absurd rfl (h t)
  | _ => rfl

theorem holdNext_step {t : τ} {w : Word} {nx : Next}
    (hs : (x.state.pc t).step (cfg.tid t) x.state.word = some (w, nx)) :
    x.holdNext cfg (.step t) = holdAfter t x.hold nx := by
  simp only [Tracked.holdNext, hs]

theorem holdAfter_error {t : τ} {h : Option (τ × Nat)} {op : Op} {r : Ret} (hr : r ≠ .ok) :
    holdAfter t h (.ret op r) = h := by
  cases op <;> cases r <;> first | rfl | exact absurd rfl hr

theorem holdAfter_acquire {t : τ} {op : Op} (hop : op ≠ .unlock) :
    holdAfter t none (.ret op .ok) = some (t, 1) := by
  cases op <;> first | rfl | exact absurd rfl hop

theorem holdAfter_relock {t : τ} {op : Op} (hop : op ≠ .unlock) (d : Nat) :
    holdAfter t (some (t, d)) (.ret op .ok) = some (t, d + 1) := by
  cases op with
  | unlock => exact absurd rfl hop
  | lock | trylock | lockTimeoutNp => exact if_pos rfl

theorem holdAfter_goto {t : τ} {h : Option (τ × Nat)} {pc : Pc} (hw : ∀ sh, pc ≠ .wake sh)
    (hn : ∀ sh, pc ≠ .nWake sh) : holdAfter t h (.goto pc) = h := by
  cases pc <;> first | rfl | exact absurd rfl (hw _) | exact absurd rfl (hn _)

/-! ## Recursive and errorcheck mutexes -/

/-- The hold that the abstract lock describes. -/
def OwnedLock.hold : OwnedLock τ → Option (τ × Nat)
  | .free => none
  | .held t c => some (t, c.val + 1)

theorem Seen.hold {t : τ} {a a' : OwnedLock τ} {nx : Next} (h : Seen ty t a nx a')
    (hn : ∀ sh, nx ≠ .goto (.nWake sh)) : holdAfter t a.hold nx = a'.hold := by
  cases h with
  | goto hw => exact holdAfter_goto hw fun sh hsh => hn sh (by rw [hsh])
  | sleep => rfl
  | released _ => rfl
  | ret hr =>
      cases hr with
      | acquire hop => exact holdAfter_acquire hop
      | relock _ hop _ => exact holdAfter_relock hop _
      | overflow _ _ _ | deadlock _ _ | busy _ _ | notOwner _ => exact holdAfter_error (by decide)
      | unnest _ => rfl
      | release => rfl

/-- The hold of a recursive or errorcheck mutex is what its word says. -/
theorem recHold_reachable (ht : cfg.TidsOk) (hty : ty ≠ .normal)
    {ok : Tracked τ → Event τ → Prop} {es : List (Event τ)}
    (hrun : Run (track cfg) ok (.init ty pshared) es x) :
    ∃ a, RecInv cfg ty pshared x.state a ∧ x.hold = a.hold := by
  refine hrun.invariant (I := fun x => ∃ a, RecInv cfg ty pshared x.state a ∧ x.hold = a.hold)
    ⟨.free, RecInv.init cfg ty pshared, rfl⟩ ?_
  intro x e x' hI _ hstep
  obtain ⟨a, hinv, hhold⟩ := hI
  obtain ⟨hf, hnext⟩ := track_fires hstep
  rw [hnext]
  by_cases hown : ∃ t, e = .step t
  · obtain ⟨t, rfl⟩ := hown
    generalize hs' : x'.state = s' at hf
    cases hf with
    | @step _ w nx _ hst =>
        obtain ⟨a', hinv', hseen⟩ := hinv.advance ht hty hst
        refine ⟨a', hinv', ?_⟩
        rw [holdNext_step hst, hhold]
        refine hseen.hold fun sh hsh => ?_
        have hl := hinv'.locals t
        rw [advance_pc, if_pos rfl, hsh] at hl
        exact hl
  · have hother : ∀ t, e ≠ .step t := fun t ht => hown ⟨t, ht⟩
    obtain ⟨a', hinv', -, -⟩ := fires_refines ht hty hinv hf
    have hword : x'.state.word = x.state.word := (hf.moves hother).1
    have ha : a' = a := hinv.decodes.unique ht (by rw [← hword]; exact hinv'.decodes)
    exact ⟨a', hinv', by rw [holdNext_of_not_step hother, ha, hhold]⟩

/-! ## Normal mutexes -/

/-- The depth of a normal mutex does not change what its holder relies on. -/
theorem HoldStep.holder {t : τ} {h : Option (τ × Nat)} {h' : Option τ} {nx : Next}
    (hs : HoldStep t (h.map Prod.fst) nx h') (hflat : ∀ u d, h = some (u, d) → d = 1)
    (hw : ∀ sh, nx ≠ .goto (.wake sh)) :
    (holdAfter t h nx).map Prod.fst = h' ∧
      ∀ u d, holdAfter t h nx = some (u, d) → d = 1 := by
  cases hs with
  | goto hn =>
      rw [holdAfter_goto (fun sh hsh => hw sh (by rw [hsh])) hn]
      exact ⟨rfl, hflat⟩
  | sleep => exact ⟨rfl, hflat⟩
  | busy _ =>
      rw [holdAfter_error (by decide)]
      exact ⟨rfl, hflat⟩
  | acquired hop hnone =>
      rw [Option.map_eq_none_iff.mp hnone, holdAfter_acquire hop]
      simp
  | released hsome =>
      obtain ⟨⟨u, d⟩, rfl, rfl⟩ := Option.map_eq_some_iff.mp hsome
      rw [hflat u d rfl]
      exact ⟨rfl, fun _ _ hno => by cases hno⟩
  | stored _ => exact ⟨rfl, fun _ _ hno => by cases hno⟩

/-- A thread's own step on a steady mutex. -/
theorem Steady.step {t : τ} {w : Word} {nx : Next} (hS : Steady pshared x)
    (hst : (x.state.pc t).step (cfg.tid t) x.state.word = some (w, nx)) :
    Steady pshared ⟨x.state.advance t w nx, holdAfter t x.hold nx⟩ := by
  obtain ⟨st, hword, hfree⟩ := hS.shows
  rw [hword] at hst
  obtain ⟨st', h', hw', hfree', hhold, hl'⟩ := nstep_ok hfree (hS.locals t) hst
  have hne : ∀ sh, nx ≠ .goto (.wake sh) := by
    rintro sh rfl
    exact hl'
  obtain ⟨hholder, hflat⟩ := hhold.holder hS.flat hne
  have hholder : Tracked.holder ⟨x.state.advance t w nx, holdAfter t x.hold nx⟩ = h' := hholder
  refine ⟨⟨st', by rw [← hw']; exact advance_word .., by rw [hholder]; exact hfree'⟩, ?_, hflat⟩
  intro u
  rw [hholder]
  show NLocalOk pshared h' u ((x.state.advance t w nx).pc u)
  rw [advance_pc]
  split
  · next hu => rw [hu]; exact hl'
  · next hu => exact (hS.locals u).onlyBy hhold.onlyBy hu

/-- A stranger's `unlock` has let go of the mutex. -/
theorem Intruded.let_go {u : τ} {w : Word} {nx : Next} (hI : Intruded pshared x u)
    (hw : w = NState.unlocked.word pshared) (hl : NLocalOk pshared none u (nx.pc (x.state.pc u))) :
    Steady pshared ⟨x.state.advance u w nx, none⟩ := by
  refine ⟨⟨.unlocked, by rw [← hw]; exact advance_word .., by simp [Tracked.holder]⟩, ?_,
    fun _ _ hno => by cases hno⟩
  intro t
  show NLocalOk pshared none t ((x.state.advance u w nx).pc t)
  rw [advance_pc]
  split
  · next ht => rw [ht]; exact hl
  · next ht => exact hI.others t ht

/-- A stranger's own step. -/
theorem Intruded.step {u : τ} {w : Word} {nx : Next} (hI : Intruded pshared x u)
    (hst : (x.state.pc u).step (cfg.tid u) x.state.word = some (w, nx)) :
    Steady pshared ⟨x.state.advance u w nx, holdAfter u x.hold nx⟩ ∨
      Intruded pshared ⟨x.state.advance u w nx, holdAfter u x.hold nx⟩ u := by
  have hothers : ∀ t, t ≠ u → NLocalOk pshared none t ((x.state.advance u w nx).pc t) := by
    intro t ht
    rw [advance_pc, if_neg ht]
    exact hI.others t ht
  rcases hI.own with ⟨⟨st, hword, hfree⟩, hpc | hpc⟩ | hpc
  · rw [hpc, hword] at hst
    obtain ⟨rfl, rfl⟩ := Prod.mk.inj (Option.some.inj hst)
    have hd : dispatch .unlock (cfg.tid u) (st.word pshared) =
        .goto (.nDec (sharedWord pshared)) := by
      simp only [dispatch, NState.word_type, if_pos, NState.word_shared]
    rw [hd] at hothers ⊢
    refine .inr ⟨hI.stranger, hothers, hI.flat, .inl ⟨⟨st, rfl, hfree⟩, .inr ?_⟩⟩
    simp [Next.pc]
  · rw [hpc, hword] at hst
    obtain ⟨rfl, rfl⟩ := Prod.mk.inj (Option.some.inj hst)
    by_cases hlocked : st = .locked
    · -- the decrement itself releases
      subst hlocked
      have hret : ¬ NState.locked.word pshared ≠
          sharedWord pshared ||| mutexStateBitsLockedUncontended := not_not.mpr rfl
      have hnone : holdAfter u x.hold (.ret .unlock .ok) = none := by
        cases hh : x.hold with
        | none => rfl
        | some p => rw [show p = (p.1, 1) from Prod.ext rfl (hI.flat p.1 p.2 hh)]; rfl
      rw [if_neg hret, hnone]
      exact .inl (hI.let_go NState.word_dec_locked trivial)
    · have hgo : st.word pshared ≠ sharedWord pshared ||| mutexStateBitsLockedUncontended :=
        fun he => hlocked (NState.word_inj.mp he)
      rw [if_pos hgo] at hothers ⊢
      refine .inr ⟨hI.stranger, hothers, hI.flat, .inr ?_⟩
      simp [Next.pc]
  · rw [hpc] at hst
    obtain ⟨rfl, rfl⟩ := Prod.mk.inj (Option.some.inj hst)
    exact .inl (hI.let_go NState.word_unlocked.symm ⟨rfl, by simp⟩)

/-- An event that is no thread's own step, on a steady mutex. -/
theorem Steady.quiet {s' : State τ} (hS : Steady pshared x) (hok : Orderly .normal x e)
    (hf : Fires cfg x.state e s') (hno : ∀ t, e ≠ .step t) :
    Steady pshared ⟨s', x.hold⟩ ∨ ∃ u, Intruded pshared ⟨s', x.hold⟩ u := by
  obtain ⟨hword, hmoves⟩ := hf.moves hno
  have hshows : Shows pshared ⟨s', x.hold⟩ := by
    obtain ⟨st, hw, hfree⟩ := hS.shows
    exact ⟨st, hword.trans hw, hfree⟩
  have hlocal : ∀ u, e ≠ .call u .unlock ∨ x.holder = some u →
      NLocalOk pshared x.holder u (s'.pc u) := by
    intro u hu
    rcases hmoves u with hpc | hpc | ⟨op, rfl, hpc⟩ | haw
    · rw [hpc]
      exact hS.locals u
    · rw [hpc]
      trivial
    · rw [hpc]
      intro hop
      subst hop
      exact hu.resolve_left (not_not_intro rfl)
    · exact (hS.locals u).returned haw
  by_cases hcall : ∃ t, e = .call t .unlock ∧ x.holder ≠ some t
  · obtain ⟨t, rfl, hnot⟩ := hcall
    have hrest := (hok rfl).2 t rfl hnot
    have hpc : ∀ u, s'.pc u = if u = t then .enter .unlock else x.state.pc u := by
      cases hf with
      | call _ => exact fun u => setPc_pc _ _ _ _
    refine .inr ⟨t, hnot, fun u hu => ?_, hS.flat, .inl ⟨hshows, .inl ?_⟩⟩
    · show NLocalOk pshared none u (s'.pc u)
      rw [hpc, if_neg hu]
      exact (hS.locals u).without (hrest u)
    · exact (hpc t).trans (if_pos rfl)
  · refine .inl ⟨hshows, fun u => hlocal u ?_, hS.flat⟩
    by_cases hu : e = .call u .unlock
    · exact .inr (by_contra fun hnot => hcall ⟨u, hu, hnot⟩)
    · exact .inl hu

/-- While a stranger unlocks the mutex, the only other events are sleepers that
come back. -/
theorem Intruded.isReturn {u : τ} {s' : State τ} (hI : Intruded pshared x u)
    (hok : Orderly .normal x e) (hf : Fires cfg x.state e s') (hno : ∀ t, e ≠ .step t) :
    e.isReturn = true := by
  have hrel := hI.releasing
  obtain ⟨hclock, hwake, -⟩ := Pc.of_isNReleasing hrel
  by_cases hu : u = e.actor
  · -- the stranger itself could only take its next step
    subst hu
    cases hf with
    | call hpc => rw [Event.actor, hpc] at hrel; cases hrel
    | step _ _ => exact absurd rfl (hno _)
    | expire _ hc => exact absurd (hclock.symm.trans hc) (by decide)
    | wakeNone hw _ | wakeSome hw _ _ _ => exact absurd (hwake.symm.trans hw) (by simp)
    | interrupt _ _ | timeout _ _ | timeoutBusy _ _ => rfl
  · exact (hok rfl).1 u hu ⟨hrel, hI.stranger⟩

/-- A sleeper that comes back moves nobody who is not at a wait. -/
theorem Fires.return_pc {s s' : State τ} {u : τ} (hf : Fires cfg s e s')
    (hreturn : e.isReturn = true) (hwait : (s.pc u).afterWait = none) : s'.pc u = s.pc u := by
  have hasleep : ∀ {v pc}, (s.pc v).afterWait = some pc → u ≠ v := by
    rintro v pc haw rfl
    rw [hwait] at haw
    cases haw
  cases hf with
  | interrupt haw _ | timeout haw _ => rw [resume_pc, if_neg (hasleep haw)]
  | @timeoutBusy v op m mv pc hpc _ =>
      have haw : (s.pc v).afterWait = some (.reload op m) := by
        rw [hpc]
        rfl
      have hne := hasleep haw
      rw [ret_pc, resume_pc, if_neg hne, if_neg hne]
  | call _ | step _ _ | expire _ _ | wakeNone _ _ | wakeSome _ _ _ _ => cases hreturn

theorem Intruded.quiet {u : τ} {s' : State τ} (hI : Intruded pshared x u)
    (hok : Orderly .normal x e) (hf : Fires cfg x.state e s') (hno : ∀ t, e ≠ .step t) :
    Intruded pshared ⟨s', x.hold⟩ u := by
  obtain ⟨hword, hmoves⟩ := hf.moves hno
  have hreturn := hI.isReturn hok hf hno
  have hpc := hf.return_pc hreturn (Pc.of_isNReleasing hI.releasing).2.2
  have hothers : ∀ t, t ≠ u → NLocalOk pshared none t (s'.pc t) := by
    intro t ht
    rcases hmoves t with hsame | hidle | ⟨op, rfl, -⟩ | haw
    · rw [hsame]
      exact hI.others t ht
    · rw [hidle]
      trivial
    · cases hreturn
    · exact (hI.others t ht).returned haw
  refine ⟨hI.stranger, hothers, hI.flat, ?_⟩
  rcases hI.own with ⟨⟨st, hw, hfree⟩, hown⟩ | hown
  · left
    refine ⟨⟨st, hword.trans hw, hfree⟩, ?_⟩
    show s'.pc u = _ ∨ s'.pc u = _
    rw [hpc]
    exact hown
  · exact .inr (hpc.trans hown)

/-- A normal mutex is steady, or one stranger is unlocking it. -/
theorem normHold_reachable {es : List (Event τ)}
    (hrun : Run (track cfg) (Orderly .normal) (.init .normal pshared) es x) :
    Steady pshared x ∨ ∃ u, Intruded pshared x u := by
  refine hrun.invariant (I := fun x => Steady pshared x ∨ ∃ u, Intruded pshared x u)
    (.inl (Steady.init pshared)) ?_
  intro x e x' hI hok hstep
  obtain ⟨hf, hnext⟩ := track_fires hstep
  obtain ⟨s', h'⟩ := x'
  have hnext : h' = x.holdNext cfg e := hnext
  have hf : Fires cfg x.state e s' := hf
  by_cases hown : ∃ t, e = .step t
  · obtain ⟨t, rfl⟩ := hown
    cases hf with
    | @step _ w nx _ hst =>
        rw [holdNext_step hst] at hnext
        subst hnext
        rcases hI with hS | ⟨u, hI⟩
        · exact .inl (hS.step hst)
        · by_cases hu : u = t
          · subst hu
            exact (hI.step hst).imp_right fun hI' => ⟨u, hI'⟩
          · exact absurd ((hok rfl).1 u hu ⟨hI.releasing, hI.stranger⟩) (by simp [Event.isReturn])
  · have hno : ∀ t, e ≠ .step t := fun t ht => hown ⟨t, ht⟩
    rw [holdNext_of_not_step hno] at hnext
    subst hnext
    rcases hI with hS | ⟨u, hI⟩
    · exact hS.quiet hok hf hno
    · exact .inr ⟨u, hI.quiet hok hf hno⟩

end

end Pisces.Mutex
