import Mathlib.Logic.Function.Basic

/-!
# Scripts that can be killed

A shell script reads the state it works on and changes it by one operation
after another, and it may be killed before any of them. `Script` is the tree
of what a script does; running it takes a budget of operations, and the
script is killed when it asks for one more than the budget has. No budget
means that nobody kills it.

`Script.wp` is the weakest precondition with two postconditions: one for the
script that reaches its end, one for every state in which it can stop before.
The second is what the next script finds, so a property of runs with kills is
an invariant carried by it.
-/

namespace Pisces.Lib

/-- Why a script stopped before its end. -/
inductive Stop where
  | exit
  | killed
  deriving DecidableEq, Repr

theorem Stop.of_killed_eq_exit {P : Prop} (h : Stop.killed = .exit) : P := by cases h

inductive Script (σ : Type) (α : Type) where
  | ret (a : α)
  | stop
  | look (k : σ → Script σ α)
  | act (f : σ → σ) (k : Script σ α)

inductive Outcome (σ : Type) (α : Type) where
  | done (a : α) (s : σ)
  | stopped (why : Stop) (s : σ)

namespace Outcome

variable {σ α : Type}

def state : Outcome σ α → σ
  | done _ s => s
  | stopped _ s => s

def isDone : Outcome σ α → Bool
  | done _ _ => true
  | stopped _ _ => false

theorem eq_done {x : Outcome σ Unit} (h : x.isDone = true) : x = .done () x.state := by
  cases x with
  | done a s => rfl
  | stopped why s => cases h

/-- The outcome meets the postcondition of its kind. -/
def Meets (Q : α → σ → Prop) (C : Stop → σ → Prop) : Outcome σ α → Prop
  | done a s => Q a s
  | stopped why s => C why s

/-- What both postconditions say of the state holds wherever the run ended. -/
theorem Meets.state {Q : α → σ → Prop} {C : Stop → σ → Prop} {P : σ → Prop} {x : Outcome σ α}
    (h : x.Meets Q C) (hQ : ∀ a s, Q a s → P s) (hC : ∀ why s, C why s → P s) : P x.state := by
  cases x with
  | done a s => exact hQ a s h
  | stopped why s => exact hC why s h

end Outcome

namespace Script

variable {σ α β : Type}

protected def bind : Script σ α → (α → Script σ β) → Script σ β
  | ret a, g => g a
  | stop, _ => stop
  | look k, g => look fun s => (k s).bind g
  | act f k, g => act f (k.bind g)

instance : Monad (Script σ) where
  pure := ret
  bind := Script.bind

/-- One operation on the state. -/
def op (f : σ → σ) : Script σ Unit := act f (ret ())

/-- The script exits with an error. -/
def exit : Script σ α := stop

def get (g : σ → α) : Script σ α := look fun s => ret (g s)

/-- Goes on only if `c` holds. -/
def require (c : Bool) : Script σ Unit := if c then pure () else exit

/-- Looks at the state and does one thing or the other. -/
def branch (c : σ → Bool) (m₁ m₂ : Script σ α) : Script σ α := look fun s => if c s then m₁ else m₂

def when (c : σ → Bool) (m : Script σ Unit) : Script σ Unit := branch c m (pure ())

/-- The script under a budget of operations. -/
def run : Script σ α → Option Nat → σ → Outcome σ α
  | ret a, _, s => .done a s
  | stop, _, s => .stopped .exit s
  | look k, b, s => (k s).run b s
  | act _ _, some 0, s => .stopped .killed s
  | act f k, some (n + 1), s => k.run (some n) (f s)
  | act f k, none, s => k.run none (f s)

/-- From here the script ends in `Q`, and wherever it stops before that it
stops in `C`. -/
def wp : Script σ α → (α → σ → Prop) → (Stop → σ → Prop) → σ → Prop
  | ret a, Q, _, s => Q a s
  | stop, _, C, s => C .exit s
  | look k, Q, C, s => (k s).wp Q C s
  | act f k, Q, C, s => C .killed s ∧ k.wp Q C (f s)

/-! The two laws by which a script is cut in two. -/

theorem bind_assoc {γ : Type} (m : Script σ α) (f : α → Script σ β) (g : β → Script σ γ) :
    (m >>= f) >>= g = m >>= fun a => f a >>= g := by
  show (m.bind f).bind g = m.bind fun a => (f a).bind g
  induction m with
  | ret a => rfl
  | stop => rfl
  | look k ih => exact congrArg look (funext ih)
  | act f k ih => exact congrArg (act f) ih

theorem branch_bind (c : σ → Bool) (m₁ m₂ : Script σ α) (g : α → Script σ β) :
    branch c m₁ m₂ >>= g = branch c (m₁ >>= g) (m₂ >>= g) := by
  refine congrArg look (funext fun s => ?_)
  show (if c s then m₁ else m₂).bind g = if c s then m₁.bind g else m₂.bind g
  split <;> rfl

theorem when_bind (c : σ → Bool) (m : Script σ Unit) (g : Unit → Script σ β) :
    when c m >>= g = branch c (m >>= g) (g ()) := branch_bind c m (pure ()) g

section Rules

variable {Q Q' : α → σ → Prop} {C C' : Stop → σ → Prop} {s : σ}

@[simp] theorem wp_pure (a : α) : (pure a : Script σ α).wp Q C s ↔ Q a s := Iff.rfl

@[simp] theorem wp_exit : (exit : Script σ α).wp Q C s ↔ C .exit s := Iff.rfl

@[simp] theorem wp_get (g : σ → α) : (get g).wp Q C s ↔ Q (g s) s := Iff.rfl

@[simp] theorem wp_op (f : σ → σ) {Q : Unit → σ → Prop} :
    (op f).wp Q C s ↔ C .killed s ∧ Q () (f s) := Iff.rfl

@[simp] theorem wp_bind (m : Script σ α) (g : α → Script σ β) {Q : β → σ → Prop} :
    (m >>= g).wp Q C s ↔ m.wp (fun a s' => (g a).wp Q C s') C s := by
  show (m.bind g).wp Q C s ↔ _
  induction m generalizing s with
  | ret a => rfl
  | stop => rfl
  | look k ih => exact ih s
  | act f k ih => exact and_congr_right fun _ => ih

theorem wp_require {c : Bool} {Q : Unit → σ → Prop} (hyes : c = true → Q () s)
    (hno : c = false → C .exit s) : (require c).wp Q C s := by
  unfold require
  cases c with
  | false => exact hno rfl
  | true => exact hyes rfl

theorem wp_branch {c : σ → Bool} {m₁ m₂ : Script σ α} (h₁ : c s = true → m₁.wp Q C s)
    (h₂ : c s = false → m₂.wp Q C s) : (branch c m₁ m₂).wp Q C s := by
  show (if c s then m₁ else m₂).wp Q C s
  split
  · next h => exact h₁ h
  · next h => exact h₂ (Bool.eq_false_iff.mpr h)

theorem wp_when {c : σ → Bool} {m : Script σ Unit} {Q : Unit → σ → Prop}
    (h₁ : c s = true → m.wp Q C s) (h₂ : c s = false → Q () s) : (when c m).wp Q C s :=
  wp_branch h₁ h₂

theorem wp_mono {m : Script σ α} (h : m.wp Q C s) (hQ : ∀ a s, Q a s → Q' a s)
    (hC : ∀ why s, C why s → C' why s) : m.wp Q' C' s := by
  induction m generalizing s with
  | ret a => exact hQ a s h
  | stop => exact hC _ s h
  | look k ih => exact ih s h
  | act f k ih => exact ⟨hC _ s h.1, ih h.2⟩

theorem wp_true (m : Script σ α) (s : σ) : m.wp (fun _ _ => True) (fun _ _ => True) s := by
  induction m generalizing s with
  | ret a => trivial
  | stop => trivial
  | look k ih => exact ih s s
  | act f k ih => exact ⟨trivial, ih (f s)⟩

theorem wp_and {Q₁ Q₂ : α → σ → Prop} {C₁ C₂ : Stop → σ → Prop} {m : Script σ α}
    (h₁ : m.wp Q₁ C₁ s) (h₂ : m.wp Q₂ C₂ s) :
    m.wp (fun a s => Q₁ a s ∧ Q₂ a s) (fun why s => C₁ why s ∧ C₂ why s) s := by
  induction m generalizing s with
  | ret a => exact ⟨h₁, h₂⟩
  | stop => exact ⟨h₁, h₂⟩
  | look k ih => exact ih s h₁ h₂
  | act f k ih => exact ⟨⟨h₁.1, h₂.1⟩, ih h₁.2 h₂.2⟩

/-- A loop over a list. The invariant sees what is still to come. -/
theorem wp_forM {ι : Type} (I : List ι → σ → Prop) {body : ι → Script σ Unit} {l : List ι}
    (hbody : ∀ x xs s, I (x :: xs) s → (body x).wp (fun _ => I xs) C s) (hinit : I l s) :
    (forM l body).wp (fun _ => I []) C s := by
  induction l generalizing s with
  | nil => exact hinit
  | cons x xs ih =>
      rw [List.forM_cons, wp_bind]
      exact wp_mono (hbody x xs s hinit) (fun _ _ h => ih h) (fun _ _ h => h)

/-- Whatever the budget, a run ends as the weakest precondition says. -/
theorem run_meets {m : Script σ α} (h : m.wp Q C s) (b : Option Nat) :
    (m.run b s).Meets Q C := by
  induction m generalizing s b with
  | ret a => exact h
  | stop => exact h
  | look k ih => exact ih s h b
  | act f k ih =>
      match b with
      | some 0 => exact h.1
      | some (n + 1) => exact ih h.2 (some n)
      | none => exact ih h.2 none

/-- What holds at the end and at every stop holds in the state a run leaves. -/
theorem run_state {P : σ → Prop} {m : Script σ α} (h : m.wp (fun _ => P) (fun _ => P) s)
    (b : Option Nat) : P (m.run b s).state :=
  (run_meets h b).state (fun _ _ h => h) (fun _ _ h => h)

/-- Without a budget nobody kills the script, so what holds when it is killed
does not matter. -/
theorem run_none_meets {m : Script σ α} {E : σ → Prop}
    (h : m.wp Q (fun why s => why = .exit → E s) s) :
    (m.run none s).Meets Q (fun why s => why = .exit ∧ E s) := by
  induction m generalizing s with
  | ret a => exact h
  | stop => exact ⟨rfl, h rfl⟩
  | look k ih => exact ih s h
  | act f k ih => exact ih h.2

/-- A script that does not exit reaches its end when nobody kills it. -/
theorem run_none_done {m : Script σ α} {E : Prop}
    (h : m.wp Q (fun why _ => why = .exit → E) s) (hE : ¬ E) :
    ∃ a s', m.run none s = .done a s' ∧ Q a s' := by
  have hmeets := run_none_meets h
  cases hrun : m.run none s with
  | done a s' =>
      rw [hrun] at hmeets
      exact ⟨a, s', rfl, hmeets⟩
  | stopped why s' =>
      rw [hrun] at hmeets
      exact absurd hmeets.2 hE

/-- If it is settled from the start whether a script that does not exit meets
its postcondition, then that is what its precondition says. -/
theorem wp_settled {m : Script σ α} {R : Prop}
    (h : m.wp (fun a s => Q a s ↔ R) (fun why _ => why = .killed) s) :
    m.wp Q (fun _ _ => True) s ↔ R := by
  constructor
  · intro hQ
    have hboth : m.wp (fun a s => (Q a s ↔ R) ∧ Q a s) (fun why _ => why = .exit → False) s := by
      refine wp_mono (wp_and h hQ) (fun _ _ h => h) ?_
      intro why _ hwhy hexit
      rw [hwhy.1] at hexit
      cases hexit
    obtain ⟨a, s', -, hR, hq⟩ := run_none_done hboth not_false
    exact hR.mp hq
  · exact fun hR => wp_mono h (fun _ _ hQ => hQ.mpr hR) (fun _ _ _ => trivial)

/-- A script that cannot reach its end exits when nobody kills it. -/
theorem run_none_exits {m : Script σ α} {E : σ → Prop}
    (h : m.wp (fun _ _ => False) (fun why s => why = .exit → E s) s) :
    ∃ s', m.run none s = .stopped .exit s' ∧ E s' := by
  have hmeets := run_none_meets h
  cases hrun : m.run none s with
  | done a s' =>
      rw [hrun] at hmeets
      exact hmeets.elim
  | stopped why s' =>
      rw [hrun] at hmeets
      obtain ⟨rfl, hs'⟩ := hmeets
      exact ⟨s', rfl, hs'⟩

end Rules

/-! ## Scripts that keep something -/

/-- Every operation of the script keeps `I`. -/
def Keeps (I : σ → Prop) (m : Script σ α) : Prop :=
  ∀ s, I s → m.wp (fun _ => I) (fun _ => I) s

namespace Keeps

variable {I : σ → Prop}

theorem pure (a : α) : Keeps I (Pure.pure a : Script σ α) := fun _ h => h

theorem get (g : σ → α) : Keeps I (get g) := fun _ h => h

theorem op {f : σ → σ} (hf : ∀ s, I s → I (f s)) : Keeps I (op f) := fun s h => ⟨h, hf s h⟩

theorem bind {m : Script σ α} {g : α → Script σ β} (hm : Keeps I m) (hg : ∀ a, Keeps I (g a)) :
    Keeps I (m >>= g) := by
  intro s h
  rw [wp_bind]
  exact wp_mono (hm s h) (fun a s' h' => hg a s' h') (fun _ _ h' => h')

theorem require (c : Bool) : Keeps I (require c) :=
  fun _ h => wp_require (fun _ => h) (fun _ => h)

theorem branch {c : σ → Bool} {m₁ m₂ : Script σ α} (h₁ : Keeps I m₁) (h₂ : Keeps I m₂) :
    Keeps I (branch c m₁ m₂) :=
  fun s h => wp_branch (fun _ => h₁ s h) (fun _ => h₂ s h)

theorem when {c : σ → Bool} {m : Script σ Unit} (hm : Keeps I m) : Keeps I (when c m) :=
  branch hm (pure ())

theorem forM {ι : Type} {l : List ι} {body : ι → Script σ Unit}
    (hbody : ∀ x ∈ l, Keeps I (body x)) : Keeps I (forM l body) := by
  induction l with
  | nil => exact pure ()
  | cons x xs ih =>
      rw [List.forM_cons]
      exact bind (hbody x List.mem_cons_self)
        (fun _ => ih fun y hy => hbody y (List.mem_cons_of_mem _ hy))

end Keeps

/-! ## Scripts that exit nowhere -/

def NoExit (m : Script σ α) : Prop := ∀ s, m.wp (fun _ _ => True) (fun why _ => why = .killed) s

namespace NoExit

theorem pure (a : α) : NoExit (Pure.pure a : Script σ α) := fun _ => trivial

theorem get (g : σ → α) : NoExit (get g) := fun _ => trivial

theorem op (f : σ → σ) : NoExit (op f) := fun _ => ⟨rfl, trivial⟩

theorem bind {m : Script σ α} {g : α → Script σ β} (hm : NoExit m) (hg : ∀ a, NoExit (g a)) :
    NoExit (m >>= g) := by
  intro s
  rw [wp_bind]
  exact wp_mono (hm s) (fun a s' _ => hg a s') (fun _ _ h => h)

theorem branch {c : σ → Bool} {m₁ m₂ : Script σ α} (h₁ : NoExit m₁) (h₂ : NoExit m₂) :
    NoExit (branch c m₁ m₂) :=
  fun s => wp_branch (fun _ => h₁ s) (fun _ => h₂ s)

theorem when {c : σ → Bool} {m : Script σ Unit} (hm : NoExit m) : NoExit (when c m) :=
  branch hm (pure ())

theorem forM {ι : Type} {l : List ι} {body : ι → Script σ Unit} (hbody : ∀ x, NoExit (body x)) :
    NoExit (forM l body) := by
  induction l with
  | nil => exact pure ()
  | cons x xs ih =>
      rw [List.forM_cons]
      exact bind (hbody x) (fun _ => ih)

end NoExit

theorem Keeps.ends {I : σ → Prop} {m : Script σ α} {s : σ} (h : Keeps I m) (hm : NoExit m)
    (hs : I s) : m.wp (fun _ => I) (fun why _ => why = .killed) s :=
  wp_mono (wp_and (h s hs) (hm s)) (fun _ _ h => h.1) fun _ _ h => h.2

end Script

end Pisces.Lib
