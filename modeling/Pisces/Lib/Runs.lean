import Mathlib.Logic.Function.Basic

/-!
# Runs of an event-driven system

A system is a partial step function: `step s e` is the state that event `e`
leads to, and `none` when the event is not enabled in `s`. A run is a finite
list of events, each enabled where it is taken. What a caller promises about
the events it sends is a guard on the state before the step, so that one
system can be run under several disciplines without being defined twice.

The one rule everything downstream leans on is `Run.invariant`: what holds at
the start and is kept by every guarded step holds at the end of every run.
-/

namespace Pisces.Lib

variable {σ ε : Type*}

/-- The runs of `step` from `s₀` in which every event `e` is taken in a state
`s` with `ok s e`. Events are listed oldest first. -/
inductive Run (step : σ → ε → Option σ) (ok : σ → ε → Prop) (s₀ : σ) :
    List ε → σ → Prop
  | nil : Run step ok s₀ [] s₀
  | snoc {es : List ε} {s s' : σ} {e : ε} : Run step ok s₀ es s → ok s e →
      step s e = some s' → Run step ok s₀ (es ++ [e]) s'

/-- No promise at all about the events. -/
def always (_ : σ) (_ : ε) : Prop := True

variable {step : σ → ε → Option σ} {ok : σ → ε → Prop} {s₀ : σ}

/-- A property of the state that every guarded step keeps holds after every
run that starts with it. -/
theorem Run.invariant {I : σ → Prop} (h0 : I s₀)
    (hstep : ∀ s e s', I s → ok s e → step s e = some s' → I s') :
    ∀ {es : List ε} {s : σ}, Run step ok s₀ es s → I s := by
  intro es s h
  induction h with
  | nil => exact h0
  | snoc _ hok hs ih => exact hstep _ _ _ ih hok hs

/-- A run under one promise is a run under any other that its steps keep too. -/
theorem Run.imp {ok' : σ → ε → Prop} {es : List ε} {s : σ} (h : Run step ok s₀ es s)
    (hok : ∀ s e s', ok s e → step s e = some s' → ok' s e) : Run step ok' s₀ es s := by
  induction h with
  | nil => exact .nil
  | snoc _ he hs ih => exact .snoc ih (hok _ _ _ he hs) hs

/-- The executable reading of a run: take the events one by one. -/
def runEvents (step : σ → ε → Option σ) : σ → List ε → Option σ
  | s, [] => some s
  | s, e :: es => (step s e).bind fun s' => runEvents step s' es

theorem runEvents_append {es es' : List ε} {s s' s'' : σ} (h : runEvents step s es = some s')
    (h' : runEvents step s' es' = some s'') : runEvents step s (es ++ es') = some s'' := by
  induction es generalizing s with
  | nil =>
      rw [runEvents, Option.some.injEq] at h
      subst h
      exact h'
  | cons e es ih =>
      rw [runEvents, Option.bind_eq_some_iff] at h
      obtain ⟨mid, hmid, hrest⟩ := h
      rw [List.cons_append, runEvents, hmid]
      exact ih hrest

/-- A list of events executes if each of them can be taken wherever the invariant
holds, and keeps it. -/
theorem runEvents_defined {I : σ → Prop} {es : List ε} (h0 : I s₀)
    (hstep : ∀ e ∈ es, ∀ s, I s → ∃ s', step s e = some s' ∧ I s') :
    ∃ s, runEvents step s₀ es = some s ∧ I s := by
  induction es generalizing s₀ with
  | nil => exact ⟨s₀, rfl, h0⟩
  | cons e es ih =>
      obtain ⟨mid, hmid, hI⟩ := hstep e List.mem_cons_self s₀ h0
      obtain ⟨s, hrest, hs⟩ := ih hI fun e' he' => hstep e' (List.mem_cons_of_mem e he')
      refine ⟨s, ?_, hs⟩
      rw [runEvents, hmid]
      exact hrest

/-- A run executes. -/
theorem Run.executes {es : List ε} {s : σ} (h : Run step ok s₀ es s) :
    runEvents step s₀ es = some s := by
  induction h with
  | nil => rfl
  | @snoc es s s' e _ _ hs ih =>
      have hone : runEvents step s [e] = some s' := by
        rw [runEvents, hs]
        rfl
      exact runEvents_append ih hone

theorem Run.append {es es' : List ε} {s s' : σ} (h : Run step ok s₀ es s)
    (h' : Run step ok s es' s') : Run step ok s₀ (es ++ es') s' := by
  induction h' with
  | nil => rw [List.append_nil]; exact h
  | snoc _ hok hs ih => rw [← List.append_assoc]; exact .snoc ih hok hs

/-- Simulation: if every step of one system is answered by a run of the other, so is every
run of it. -/
theorem Run.simulate {σ' ε' : Type*} {step' : σ' → ε' → Option σ'} {ok' : σ' → ε' → Prop}
    {R : σ' → σ → Prop} {c₀ : σ'} (h0 : R c₀ s₀)
    (hstep : ∀ c e c' s, R c s → ok' c e → step' c e = some c' →
      ∃ es s', Run step ok s es s' ∧ R c' s') :
    ∀ {es : List ε'} {c : σ'}, Run step' ok' c₀ es c → ∃ es' s, Run step ok s₀ es' s ∧ R c s := by
  intro es c h
  induction h with
  | nil => exact ⟨[], s₀, .nil, h0⟩
  | snoc _ hok hs ih =>
      obtain ⟨es₁, s₁, hrun₁, hR₁⟩ := ih
      obtain ⟨es₂, s₂, hrun₂, hR₂⟩ := hstep _ _ _ s₁ hR₁ hok hs
      exact ⟨es₁ ++ es₂, s₂, hrun₁.append hrun₂, hR₂⟩

/-- A list of events that executes is a run, if none of them needs a promise
about the state it is taken in. -/
theorem Run.of_runEvents : ∀ {es : List ε} {s s' : σ}, (∀ e ∈ es, ∀ s, ok s e) →
    runEvents step s es = some s' → Run step ok s es s' := by
  intro es
  induction es with
  | nil =>
      intro s s' _ h
      rw [runEvents, Option.some.injEq] at h
      subst h
      exact .nil
  | cons e es ih =>
      intro s s' hok h
      rw [runEvents, Option.bind_eq_some_iff] at h
      obtain ⟨mid, hmid, hrest⟩ := h
      have hone : Run step ok s [e] mid := .snoc .nil (hok e List.mem_cons_self s) hmid
      exact hone.append (ih (fun e' he' => hok e' (List.mem_cons_of_mem e he')) hrest)

/-- An execution that checks the promise before each event. -/
theorem Run.of_checked [∀ s e, Decidable (ok s e)] : ∀ {es : List ε} {s s' : σ},
    runEvents (fun s e => if ok s e then step s e else none) s es = some s' →
    Run step ok s es s' := by
  intro es
  induction es with
  | nil =>
      intro s s' h
      rw [runEvents, Option.some.injEq] at h
      subst h
      exact .nil
  | cons e es ih =>
      intro s s' h
      rw [runEvents, Option.bind_eq_some_iff] at h
      obtain ⟨mid, hmid, hrest⟩ := h
      split at hmid
      · next hok =>
          have hone : Run step ok s [e] mid := .snoc .nil hok hmid
          exact hone.append (ih hrest)
      · cases hmid

end Pisces.Lib
