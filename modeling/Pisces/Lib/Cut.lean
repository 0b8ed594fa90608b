import Pisces.Lib.Script

/-!
# Where a script is killed

The budget of a run says how many operations it makes; where in the script that
is takes a second script to say. `Opens R m' m` is that `m` begins with `m'` and
goes on with something of which `R` holds. A run of `m` with no more operations
than `m'` has is one of `m'`; one with at least as many has `m'` behind it, and
what the rest of `m` keeps still holds.
-/

namespace Pisces.Lib.Script

variable {σ α β γ : Type}

/-- The operations of a run that nobody kills. -/
def ops : Script σ α → σ → Nat
  | ret _, _ => 0
  | stop, _ => 0
  | look k, s => (k s).ops s
  | act f k, s => k.ops (f s) + 1

inductive Opens (R : Script σ β → Prop) : Script σ α → Script σ β → Prop where
  | ret (a : α) {m : Script σ β} (h : R m) : Opens R (ret a) m
  | stop : Opens R stop stop
  | look {k' : σ → Script σ α} {k : σ → Script σ β} (h : ∀ s, Opens R (k' s) (k s)) :
      Opens R (look k') (look k)
  | act {f : σ → σ} {k' : Script σ α} {k : Script σ β} (h : Opens R k' k) :
      Opens R (act f k') (act f k)

theorem run_zero (m : Script σ α) (s : σ) : (m.run (some 0) s).state = s := by
  induction m with
  | ret a => rfl
  | stop => rfl
  | look k ih => exact ih s
  | act f k => rfl

namespace Opens

variable {R : Script σ β → Prop} {m' : Script σ α} {m : Script σ β} {I : σ → Prop} {s : σ}

/-! ## What it says of runs -/

theorem run_eq (h : Opens R m' m) {b : Nat} (hb : b ≤ m'.ops s) :
    (m.run (some b) s).state = (m'.run (some b) s).state := by
  induction h generalizing s b with
  | ret a =>
      obtain rfl := Nat.le_zero.mp hb
      rw [run_zero, run_zero]
  | stop => rfl
  | look _ ih => exact ih s hb
  | act _ ih =>
      cases b with
      | zero => rfl
      | succ b => exact ih (Nat.le_of_succ_le_succ hb)

/-- Killed while it was still in `m'`, a script leaves what `m'` can leave. -/
theorem early (h : Opens R m' m) (hwp : m'.wp (fun _ => I) (fun _ => I) s) {b : Nat}
    (hb : b ≤ m'.ops s) : I (m.run (some b) s).state := by
  rw [h.run_eq hb]
  exact run_state hwp (some b)

/-- With `m'` behind it, a script leaves what the rest keeps. -/
theorem late (h : Opens (Keeps I) m' m)
    (hwp : m'.wp (fun _ => I) (fun why s => why = .exit → I s) s) {budget : Option Nat}
    (hb : ∀ b, budget = some b → m'.ops s ≤ b) : I (m.run budget s).state := by
  induction h generalizing s budget with
  | ret a hrest => exact run_state (hrest s hwp) budget
  | stop => exact hwp rfl
  | look _ ih => exact ih s hwp hb
  | act _ ih =>
      match budget with
      | none =>
          refine ih hwp.2 fun b hb' => ?_
          cases hb'
      | some 0 => exact absurd (hb 0 rfl) (Nat.not_succ_le_zero _)
      | some (b + 1) =>
          refine ih hwp.2 fun b' hb' => ?_
          rw [Option.some.injEq] at hb'
          rw [← hb']
          exact Nat.le_of_succ_le_succ (hb (b + 1) rfl)

/-! ## How scripts begin -/

theorem bind {g' : γ → Script σ α} {g : γ → Script σ β} (n : Script σ γ)
    (h : ∀ c, Opens R (g' c) (g c)) : Opens R (n >>= g') (n >>= g) := by
  show Opens R (n.bind g') (n.bind g)
  induction n with
  | ret c => exact h c
  | stop => exact .stop
  | look k ih => exact .look ih
  | act f k ih => exact .act ih

theorem split {g : γ → Script σ β} (n : Script σ γ) (h : ∀ c, R (g c)) : Opens R n (n >>= g) := by
  show Opens R n (n.bind g)
  induction n with
  | ret c => exact .ret c (h c)
  | stop => exact .stop
  | look k ih => exact .look ih
  | act f k ih => exact .act ih

theorem branch {c : σ → Bool} {m₁' m₂' : Script σ α} {m₁ m₂ : Script σ β} (h₁ : Opens R m₁' m₁)
    (h₂ : Opens R m₂' m₂) : Opens R (branch c m₁' m₂') (branch c m₁ m₂) := by
  refine .look fun s => ?_
  split
  · exact h₁
  · exact h₂

/-- The first rounds of a loop. -/
theorem forM_take {ι : Type} {body : ι → Script σ Unit} {g : Unit → Script σ β} :
    ∀ {l : List ι} {i : Nat}, R (forM (l.drop i) body >>= g) →
      Opens R (forM (l.take i) body) (forM l body >>= g)
  | [], i, h => by
      rw [List.take_nil]
      rw [List.drop_nil] at h
      exact .ret () h
  | _ :: _, 0, h => .ret () h
  | x :: l, i + 1, h => by
      rw [List.take_succ_cons, List.forM_cons, List.forM_cons, bind_assoc]
      exact .bind (body x) fun _ => forM_take h

end Opens

end Pisces.Lib.Script
