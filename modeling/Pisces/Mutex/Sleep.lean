import Pisces.Mutex.Steps

/-!
# Who wakes the sleepers

A sleeper is safe as long as somebody is bound to wake it. The duty can rest
in three places: in the word, when it is marked as contended and the holder's
`unlock` will see the mark; with a thread inside `unlock` whose futex wake is
still to come; or with an awake thread in the contended loop, which will mark
the word before it leaves or sleeps. Both kinds of mutex hand the duty around
this way and differ only in which program points are which, so the argument
is made once, over a `Discipline`.
-/

namespace Pisces.Mutex

variable {τ : Type}

/-- Which program points play which part. -/
structure Discipline where
  /-- Where sleepers are. -/
  waits : Pc → Bool
  /-- An awake thread here will mark the word. -/
  awake : Pc → Bool
  /-- A thread here still has its futex wake to make. -/
  waking : Pc → Bool
  /-- The word's holder will make a futex wake. -/
  marked : Word → Bool
  idle_awake : awake .idle = false
  idle_waking : waking .idle = false
  idle_waits : waits .idle = false
  waits_waking : ∀ {pc : Pc}, waits pc = true → waking pc = false
  waits_wakes : ∀ {pc : Pc} {sh : Bool}, waits pc = true → pc.wakesShared ≠ some sh
  waits_resume : ∀ {pc pc' : Pc}, waits pc = true → pc.afterWait = some pc' → awake pc' = true

variable {D : Discipline} {s s' : State τ} {t : τ}

/-- The thread is awake in the contended loop, or it is in `unlock` with its
futex wake still to come. -/
def Carries (D : Discipline) (s : State τ) (u : τ) : Prop :=
  (u ∉ s.queue ∧ D.awake (s.pc u) = true) ∨ D.waking (s.pc u) = true

/-- Thread `t` may leave without stranding anyone: nobody sleeps, or the word
is marked, or some other thread carries the duty. -/
def HandsOver (D : Discipline) (s : State τ) (t : τ) : Prop :=
  s.queue = [] ∨ D.marked s.word = true ∨ ∃ u, u ≠ t ∧ Carries D s u

/-- The runs in which every deadline that a clock check finds passed is found
in a state where the thread may leave. -/
def ExpiresSafely (D : Discipline) (s : State τ) : Event τ → Prop
  | .expire t => HandsOver D s t
  | _ => True

/-- The sleepers are threads at their wait, each asleep once, and while there
are any, somebody has the duty to wake them. -/
structure SleepInv (D : Discipline) (s : State τ) : Prop where
  nodup : s.queue.Nodup
  asleep : ∀ u ∈ s.queue, D.waits (s.pc u) = true
  duty : s.queue = [] ∨ D.marked s.word = true ∨ ∃ u, Carries D s u

theorem SleepInv.init (D : Discipline) (ty : MutexType) (pshared : Bool) :
    SleepInv D (Mutex.init ty pshared : State τ) where
  nodup := List.nodup_nil
  asleep u hu := by cases hu
  duty := .inl rfl

/-- A carrier that neither moves nor falls asleep goes on carrying. -/
theorem Carries.of_eq {u : τ} (h : Carries D s u) (hpc : s'.pc u = s.pc u)
    (hq : u ∈ s'.queue → u ∈ s.queue) : Carries D s' u := by
  rcases h with ⟨hnq, hin⟩ | hw
  · exact .inl ⟨fun hu => hnq (hq hu), by rw [hpc]; exact hin⟩
  · exact .inr (by rw [hpc]; exact hw)

/-- A thread that carries nothing may always leave. -/
theorem SleepInv.handsOver (h : SleepInv D s) (hnc : ¬ Carries D s t) : HandsOver D s t := by
  rcases h.duty with hnil | hmark | ⟨u, hcar⟩
  · exact .inl hnil
  · exact .inr (.inl hmark)
  · exact .inr (.inr ⟨u, fun he => hnc (he ▸ hcar), hcar⟩)

/-- While the duty is kept, an unmarked word with a sleeper on it means that
some awake thread is still inside. -/
theorem SleepInv.someone_inside (h : SleepInv D s) (hne : s.queue ≠ [])
    (hmark : D.marked s.word = false) : ∃ u, u ∉ s.queue ∧ s.pc u ≠ .idle := by
  rcases h.duty with hnil | hcon | ⟨u, hcar⟩
  · exact absurd hnil hne
  · rw [hmark] at hcon; cases hcon
  · refine ⟨u, ?_, ?_⟩
    · rcases hcar with ⟨hnq, -⟩ | hwk
      · exact hnq
      · intro hq
        rw [D.waits_waking (h.asleep u hq)] at hwk
        cases hwk
    · intro hidle
      rw [Carries, hidle, D.idle_awake, D.idle_waking] at hcar
      simp at hcar

variable [DecidableEq τ]

/-- An awake thread moves or returns; the queue and the word stay. The duty
survives if it does not rest on that thread alone. -/
theorem SleepInv.leave (h : SleepInv D s) {pc : Pc} (hw : s'.word = s.word)
    (hq : s'.queue = s.queue) (hpc : ∀ u, s'.pc u = if u = t then pc else s.pc u)
    (hnq : t ∉ s.queue) (hover : HandsOver D s t) : SleepInv D s' where
  nodup := by rw [hq]; exact h.nodup
  asleep u hu := by
    rw [hq] at hu
    have hne : u ≠ t := fun he => hnq (he ▸ hu)
    rw [hpc, if_neg hne]
    exact h.asleep u hu
  duty := by
    rcases hover with hnil | hmark | ⟨u, hne, hcar⟩
    · exact .inl (by rw [hq]; exact hnil)
    · exact .inr (.inl (by rw [hw]; exact hmark))
    · refine .inr (.inr ⟨u, hcar.of_eq ?_ (by rw [hq]; exact id)⟩)
      rw [hpc, if_neg hne]

/-- A sleeper leaves the queue. The duty was not its own, so it survives
wherever the sleeper goes. -/
theorem SleepInv.dequeue (h : SleepInv D s) {u : τ} {pc : Pc} (hu : u ∈ s.queue)
    (hw : s'.word = s.word) (hq : s'.queue = s.queue.erase u)
    (hpc : ∀ v, s'.pc v = if v = u then pc else s.pc v) : SleepInv D s' where
  nodup := by rw [hq]; exact h.nodup.erase u
  asleep v hv := by
    rw [hq, h.nodup.mem_erase_iff] at hv
    rw [hpc, if_neg hv.1]
    exact h.asleep v hv.2
  duty := by
    have hwaits := h.asleep u hu
    rcases h.duty with hnil | hmark | ⟨v, hcar⟩
    · exact absurd hu (by rw [hnil]; exact List.not_mem_nil)
    · exact .inr (.inl (by rw [hw]; exact hmark))
    · have hne : v ≠ u := by
        rintro rfl
        rcases hcar with ⟨hnq, -⟩ | hwk
        · exact hnq hu
        · rw [D.waits_waking hwaits] at hwk; cases hwk
      refine .inr (.inr ⟨v, hcar.of_eq ?_ ?_⟩)
      · rw [hpc, if_neg hne]
      · rw [hq]; exact List.mem_of_mem_erase

/-- A thread's own step keeps the duty if it falls asleep only on a marked
word and, when it had the duty or the word had it, passes it on. -/
theorem SleepInv.advance (h : SleepInv D s) {w : Word} {nx : Next} (hnq : t ∉ s.queue)
    (hsleep : nx = .sleep → D.waits (s.pc t) = true ∧ D.marked w = true)
    (hpass : D.marked s.word = true ∨ D.awake (s.pc t) = true ∨ D.waking (s.pc t) = true →
      D.marked w = true ∨ D.awake (nx.pc (s.pc t)) = true ∨ D.waking (nx.pc (s.pc t)) = true) :
    SleepInv D (s.advance t w nx) where
  nodup := by
    rw [advance_queue]
    split
    · exact List.nodup_cons.mpr ⟨hnq, h.nodup⟩
    · exact h.nodup
  asleep u hu := by
    rw [advance_queue] at hu
    rw [advance_pc]
    split at hu
    · next hsl =>
        by_cases hut : u = t
        · rw [if_pos hut, hsl]
          exact (hsleep hsl).1
        · rw [if_neg hut]
          exact h.asleep u ((List.mem_cons.mp hu).resolve_left hut)
    · have hut : u ≠ t := fun he => hnq (he ▸ hu)
      rw [if_neg hut]
      exact h.asleep u hu
  duty := by
    rw [advance_word]
    by_cases hmark : D.marked w = true
    · exact .inr (.inl hmark)
    have hnsl : nx ≠ .sleep := fun hsl => hmark (hsleep hsl).2
    have hqueue : (s.advance t w nx).queue = s.queue := by rw [advance_queue, if_neg hnsl]
    -- if the duty was the word's or `t`'s own, `t` has it now
    have hmine : D.marked s.word = true ∨ D.awake (s.pc t) = true ∨ D.waking (s.pc t) = true →
        Carries D (s.advance t w nx) t := by
      intro hown
      rw [Carries, advance_pc, if_pos rfl, hqueue]
      rcases (hpass hown).resolve_left hmark with haw | hwk
      · exact .inl ⟨hnq, haw⟩
      · exact .inr hwk
    rcases h.duty with hnil | hcon | ⟨u, hcar⟩
    · exact .inl (by rw [hqueue]; exact hnil)
    · exact .inr (.inr ⟨t, hmine (.inl hcon)⟩)
    · by_cases hut : u = t
      · subst hut
        refine .inr (.inr ⟨u, hmine (.inr ?_)⟩)
        exact hcar.imp And.right id
      · refine .inr (.inr ⟨u, hcar.of_eq ?_ (by rw [hqueue]; exact id)⟩)
        rw [advance_pc, if_neg hut]

/-- Every event keeps the duty, given that threads' own steps do and that a
wake that finds nobody means that nobody sleeps. -/
theorem SleepInv.fires {cfg : Config τ} {e : Event τ} (h : SleepInv D s)
    (hok : ExpiresSafely D s e) (hf : Fires cfg s e s')
    (hadv : ∀ t w nx, t ∉ s.queue → (s.pc t).step (cfg.tid t) s.word = some (w, nx) →
      SleepInv D (s.advance t w nx))
    (hnone : ∀ t sh, (s.pc t).wakesShared = some sh →
      (∀ u ∈ s.queue, (s.pc u).waitsShared ≠ sh) → s.queue = []) : SleepInv D s' := by
  cases hf with
  | @call t op hpc =>
      have hnq : t ∉ s.queue := by
        intro hq
        have hw := h.asleep t hq
        rw [hpc, D.idle_waits] at hw
        cases hw
      refine h.leave rfl rfl (setPc_pc s t · _) hnq (h.handsOver ?_)
      rintro (⟨-, haw⟩ | hwk)
      · rw [hpc, D.idle_awake] at haw; cases haw
      · rw [hpc, D.idle_waking] at hwk; cases hwk
  | @step t w nx hq hst => exact hadv t w nx hq hst
  | @expire t hq hc => exact h.leave rfl rfl (ret_pc s t · _ _) hq hok
  | @wakeNone t sh hsh hno =>
      have hnil := hnone t sh hsh hno
      exact h.leave rfl rfl (ret_pc s t · _ _) (by rw [hnil]; exact List.not_mem_nil)
        (.inl hnil)
  | @wakeSome t u sh pc hsh haw hq hkey =>
      have hwaits := h.asleep u hq
      have hnq : t ∉ s.queue := fun ht => D.waits_wakes (h.asleep t ht) hsh
      have htu : u ≠ t := fun he => hnq (he ▸ hq)
      have hmid : SleepInv D (s.resume u pc) := h.dequeue hq rfl rfl (resume_pc s u · _)
      refine hmid.leave rfl rfl (ret_pc _ t · _ _) (fun hm => hnq (List.mem_of_mem_erase hm)) ?_
      -- the woken sleeper has the duty now
      refine .inr (.inr ⟨u, htu, .inl ⟨?_, ?_⟩⟩)
      · exact fun hm => (h.nodup.mem_erase_iff.mp hm).1 rfl
      · rw [resume_pc, if_pos rfl]
        exact D.waits_resume hwaits haw
  | @interrupt u pc haw hq | @timeout u pc haw hq =>
      exact h.dequeue hq rfl rfl (resume_pc s u · _)
  | @timeoutBusy u op m mv pc hwait hq =>
      have hpc : ∀ v, ((s.resume u pc).ret u .lockTimeoutNp .ebusy).pc v =
          if v = u then .idle else s.pc v := by
        intro v
        rw [ret_pc, resume_pc]
        split <;> rfl
      exact h.dequeue hq rfl rfl hpc

end Pisces.Mutex
