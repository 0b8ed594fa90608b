import Pisces.Lib.Runs

/-!
# Calls under one lock

Threads call functions whose bodies run under one lock. A body works on a shared
state in steps, and between two steps of one thread others may call, or wait for
the lock. Since only the thread that has the lock takes steps of a body, the steps
of two bodies never mix: every run is one in which the calls were made one after
the other, in the order in which they gave the lock back, and that moment lies
between the call and its return.

`Locked.serial` says so, and for the call that is under way, that what is left of
its body leads where the whole of it would have led. What is to be known about the
middle of a call is then read off the end of it, with `Prog.Keeps`.
-/

namespace Pisces.Lib

/-- A body: steps on the shared state, each of which may look at the state it starts
from, and at the end a result. -/
inductive Prog (σ ρ : Type) where
  | done (r : ρ)
  | op (f : σ → σ) (k : σ → Prog σ ρ)

section Prog

variable {σ ρ : Type}

/-- The body with nobody between its steps. -/
def Prog.run : Prog σ ρ → σ → ρ × σ
  | .done r, s => (r, s)
  | .op f k, s => (k s).run (f s)

/-- Every step of the body leads from a state to one that is related to it. -/
def Prog.Keeps (R : σ → σ → Prop) : Prog σ ρ → Prop
  | .done _ => True
  | .op f k => (∀ s, R s (f s)) ∧ ∀ s, (k s).Keeps R

theorem Prog.Keeps.run {R : σ → σ → Prop} (hrefl : ∀ s, R s s)
    (htrans : ∀ {s₁ s₂ s₃}, R s₁ s₂ → R s₂ s₃ → R s₁ s₃) {p : Prog σ ρ} (h : p.Keeps R) (s : σ) :
    R s (p.run s).2 := by
  induction p generalizing s with
  | done r => exact hrefl s
  | op f k ih => exact htrans (h.1 s) (ih s (h.2 s) (f s))

end Prog

namespace Locked

/-- Where a thread is: outside, waiting for the lock, or inside with what is left of
the body. -/
inductive Pc (α σ ρ : Type) where
  | idle
  | called (a : α)
  | inside (a : α) (p : Prog σ ρ)

/-- `log` has the calls that have returned, the last one first. -/
structure State (τ α σ ρ : Type) where
  shared : σ
  pc : τ → Pc α σ ρ
  holder : Option τ
  log : List (τ × α × ρ)

inductive Event (τ α : Type) where
  | call (t : τ) (a : α)
  | lock (t : τ)
  | step (t : τ)
  | unlock (t : τ)

variable {τ α σ ρ : Type} [DecidableEq τ]

def State.setPc (s : State τ α σ ρ) (t : τ) (pc : Pc α σ ρ) : State τ α σ ρ :=
  { s with pc := Function.update s.pc t pc }

def step (body : α → Prog σ ρ) (s : State τ α σ ρ) : Event τ α → Option (State τ α σ ρ)
  | .call t a =>
      match s.pc t with
      | .idle => some (s.setPc t (.called a))
      | _ => none
  | .lock t =>
      match s.pc t, s.holder with
      | .called a, none => some { s.setPc t (.inside a (body a)) with holder := some t }
      | _, _ => none
  | .step t =>
      match s.pc t with
      | .inside a (.op f k) =>
          some { s.setPc t (.inside a (k s.shared)) with shared := f s.shared }
      | _ => none
  | .unlock t =>
      match s.pc t with
      | .inside a (.done r) =>
          some { s.setPc t .idle with holder := none, log := (t, a, r) :: s.log }
      | _ => none

def init (s₀ : σ) : State τ α σ ρ :=
  { shared := s₀, pc := fun _ => .idle, holder := none, log := [] }

/-- `Fires body s e s'`: event `e` takes `s` to `s'`. -/
inductive Fires (body : α → Prog σ ρ) (s : State τ α σ ρ) : Event τ α → State τ α σ ρ → Prop
  | call {t : τ} {a : α} : s.pc t = .idle → Fires body s (.call t a) (s.setPc t (.called a))
  | lock {t : τ} {a : α} : s.pc t = .called a → s.holder = none →
      Fires body s (.lock t) { s.setPc t (.inside a (body a)) with holder := some t }
  | step {t : τ} {a : α} {f : σ → σ} {k : σ → Prog σ ρ} : s.pc t = .inside a (.op f k) →
      Fires body s (.step t) { s.setPc t (.inside a (k s.shared)) with shared := f s.shared }
  | unlock {t : τ} {a : α} {r : ρ} : s.pc t = .inside a (.done r) →
      Fires body s (.unlock t) { s.setPc t .idle with holder := none, log := (t, a, r) :: s.log }

theorem step_fires {body : α → Prog σ ρ} {s s' : State τ α σ ρ} {e : Event τ α}
    (h : step body s e = some s') : Fires body s e s' := by
  cases e with
  | call t a =>
      simp only [step] at h
      split at h
      · next hpc =>
          rw [Option.some.injEq] at h
          subst h
          exact .call hpc
      · cases h
  | lock t =>
      simp only [step] at h
      split at h
      · next a hpc hfree =>
          rw [Option.some.injEq] at h
          subst h
          exact .lock hpc hfree
      · cases h
  | step t =>
      simp only [step] at h
      split at h
      · next a f k hpc =>
          rw [Option.some.injEq] at h
          subst h
          exact .step hpc
      · cases h
  | unlock t =>
      simp only [step] at h
      split at h
      · next a r hpc =>
          rw [Option.some.injEq] at h
          subst h
          exact .unlock hpc
      · cases h

/-! ## One call after the other -/

/-- The calls of a log, made one after the other, give the results it has. -/
inductive Serial (f : α → σ → ρ × σ) (s₀ : σ) : List (τ × α × ρ) → σ → Prop
  | nil : Serial f s₀ [] s₀
  | cons {log : List (τ × α × ρ)} {s s' : σ} {t : τ} {a : α} {r : ρ} : Serial f s₀ log s →
      f a s = (r, s') → Serial f s₀ ((t, a, r) :: log) s'

/-- `w` is what the calls that have returned have left. A thread that is inside has
the lock, and what is left of its body is part of it. -/
structure Inv (body : α → Prog σ ρ) (R : σ → σ → Prop) (s₀ : σ) (s : State τ α σ ρ) (w : σ) :
    Prop where
  serial : Serial (fun a => (body a).run) s₀ s.log w
  free : s.holder = none → s.shared = w
  holds : ∀ t, s.holder = some t → ∃ a p, s.pc t = .inside a p
  inside : ∀ t a p, s.pc t = .inside a p →
    s.holder = some t ∧ p.run s.shared = (body a).run w ∧ p.Keeps R

section

variable {body : α → Prog σ ρ} {R : σ → σ → Prop} {s₀ w : σ} {s s' : State τ α σ ρ} {e : Event τ α}

theorem Inv.step (hR : ∀ a, (body a).Keeps R) (h : Inv body R s₀ s w)
    (hs : Locked.step body s e = some s') : ∃ w', Inv body R s₀ s' w' := by
  -- another thread cannot be inside while one of them is
  have halone : ∀ {t u a p b q}, s.pc t = .inside a p → s.pc u = .inside b q → u = t := by
    intro t u a p b q ht hu
    have hholder := (h.inside t a p ht).1
    rw [(h.inside u b q hu).1] at hholder
    exact Option.some.inj hholder
  cases step_fires hs with
  | @call t a hpc =>
      refine ⟨w, h.serial, h.free, fun u hu => ?_, fun u b p hu => ?_⟩
      · obtain ⟨b, p, hin⟩ := h.holds u hu
        have hut : u ≠ t := by
          rintro rfl
          rw [hpc] at hin
          cases hin
        exact ⟨b, p, (Function.update_of_ne hut ..).trans hin⟩
      · simp only [State.setPc, Function.update_apply] at hu
        split at hu
        · cases hu
        · exact h.inside u b p hu
  | @lock t a hpc hfree =>
      refine ⟨w, h.serial, fun hno => absurd hno (by simp), fun u hu => ?_, fun u b p hu => ?_⟩
      · cases hu
        exact ⟨a, body a, Function.update_self ..⟩
      · simp only [State.setPc, Function.update_apply] at hu
        split at hu
        · next hut =>
            cases hu
            subst hut
            exact ⟨rfl, by rw [← h.free hfree]; rfl, hR _⟩
        · have hno := (h.inside u b p hu).1
          rw [hfree] at hno
          cases hno
  | @step t a f k hpc =>
      obtain ⟨hholder, hrun, hkeeps⟩ := h.inside t a _ hpc
      refine ⟨w, h.serial, fun hfree => ?_, fun u hu => ?_, fun u b p hu => ?_⟩
      · have hno : s.holder = none := hfree
        rw [hholder] at hno
        cases hno
      · have heq : s.holder = some u := hu
        rw [hholder] at heq
        cases heq
        exact ⟨a, _, Function.update_self ..⟩
      · simp only [State.setPc, Function.update_apply] at hu
        split at hu
        · next hut =>
            cases hu
            subst hut
            exact ⟨hholder, hrun, hkeeps.2 s.shared⟩
        · next hut => exact absurd (halone hpc hu) hut
  | @unlock t a r hpc =>
      obtain ⟨hholder, hrun, -⟩ := h.inside t a _ hpc
      refine ⟨s.shared, .cons h.serial hrun.symm, fun _ => rfl, fun u hu => ?_,
        fun u b p hu => ?_⟩
      · cases hu
      · simp only [State.setPc, Function.update_apply] at hu
        split at hu
        · cases hu
        · next hut => exact absurd (halone hpc hu) hut

/-- Every run is one in which the calls were made one after the other. -/
theorem serial (hR : ∀ a, (body a).Keeps R) {es : List (Event τ α)}
    (hrun : Run (Locked.step body) always (init s₀) es s) : ∃ w, Inv body R s₀ s w := by
  refine hrun.invariant (I := fun s => ∃ w, Inv body R s₀ s w) ?_ ?_
  · refine ⟨s₀, .nil, fun _ => rfl, ?_, ?_⟩
    · intro t hno
      cases hno
    · intro t a p hno
      cases hno
  · rintro s e s' ⟨w, h⟩ - hs
    exact h.step hR hs

end

/-! ## Where the calls come from -/

/-- The call that a thread is in. -/
def Pc.of : Pc α σ ρ → Option α
  | .idle => none
  | .called a | .inside a _ => some a

/-- Every call was made by an event of the run. -/
theorem called {body : α → Prog σ ρ} {s₀ : σ} {s : State τ α σ ρ} {es : List (Event τ α)}
    (hrun : Run (Locked.step body) always (init s₀) es s) :
    (∀ t a, (s.pc t).of = some a → .call t a ∈ es) ∧
      ∀ t a r, (t, a, r) ∈ s.log → .call t a ∈ es := by
  induction hrun with
  | nil =>
      constructor
      · intro t a hno
        cases hno
      · intro t a r hno
        cases hno
  | @snoc es s s' e _ _ hs ih =>
      -- a thread that the event does not move, or moves within its call
      have hstays : ∀ {t a}, (s.pc t).of = some a → .call t a ∈ es ++ [e] := fun h =>
        List.mem_append_left _ (ih.1 _ _ h)
      have hlog : ∀ {t a r}, (t, a, r) ∈ s.log → .call t a ∈ es ++ [e] := fun h =>
        List.mem_append_left _ (ih.2 _ _ _ h)
      cases step_fires hs with
      | @call t a hpc =>
          refine ⟨fun u b hu => ?_, fun u b r hu => hlog hu⟩
          simp only [State.setPc, Function.update_apply] at hu
          split at hu
          · next hut =>
              cases hu
              subst hut
              exact List.mem_append_right _ List.mem_cons_self
          · exact hstays hu
      | @lock t a hpc _ | @step t a _ _ hpc =>
          refine ⟨fun u b hu => ?_, fun u b r hu => hlog hu⟩
          simp only [State.setPc, Function.update_apply] at hu
          split at hu
          · next hut =>
              cases hu
              subst hut
              exact hstays (by rw [hpc]; rfl)
          · exact hstays hu
      | @unlock t a r hpc =>
          refine ⟨fun u b hu => ?_, fun u b r' hu => ?_⟩
          · simp only [State.setPc, Function.update_apply] at hu
            split at hu
            · cases hu
            · exact hstays hu
          · rcases List.mem_cons.mp hu with heq | hu
            · cases heq
              exact hstays (by rw [hpc]; rfl)
            · exact hlog hu

end Locked

end Pisces.Lib
