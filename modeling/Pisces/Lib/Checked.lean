import Mathlib.Data.Int.Notation
import Mathlib.Data.Nat.Notation

/-!
# Checked machine integers

A value goes into a 32-bit variable if it is one of that variable's values,
and otherwise there is no answer. A computation that answers has therefore
been exact in each of its steps, and it is enough to show that it answers.

`Yields` is the rule set for that: what is computed first is known by its
value, and the rest is asked about in turn.
-/

namespace Pisces.Lib

/-- A value stored in a signed variable. -/
def int32 (v : ℤ) : Option Int32 :=
  if -2147483648 ≤ v ∧ v ≤ 2147483647 then some (Int32.ofInt v) else none

/-- A value stored in an unsigned variable. -/
def uint32 (v : ℕ) : Option UInt32 :=
  if v ≤ 4294967295 then some (UInt32.ofNat v) else none

/-- The computation answers, with something that has the property. -/
def Yields {α : Type} (o : Option α) (Q : α → Prop) : Prop := ∃ x, o = some x ∧ Q x

section

variable {α β : Type} {Q : α → Prop}

theorem Yields.pure {x : α} (h : Q x) : Yields (some x) Q := ⟨x, rfl, h⟩

theorem Yields.bind {o : Option β} {R : β → Prop} {f : β → Option α} (ho : Yields o R)
    (h : ∀ x, R x → Yields (f x) Q) : Yields (o >>= f) Q := by
  obtain ⟨x, hx, hr⟩ := ho
  rw [hx]
  exact h x hr

theorem int32_yields {v : ℤ} (lo : -2147483648 ≤ v) (hi : v ≤ 2147483647) :
    Yields (int32 v) (fun x => x.toInt = v) := by
  refine ⟨Int32.ofInt v, if_pos ⟨lo, hi⟩, ?_⟩
  exact Int32.toInt_ofInt_of_le (by simpa using lo) (by simp; omega)

theorem uint32_yields {v : ℕ} (hi : v ≤ 4294967295) :
    Yields (uint32 v) (fun x => x.toNat = v) := by
  refine ⟨UInt32.ofNat v, if_pos hi, ?_⟩
  exact UInt32.toNat_ofNat_of_lt' (by simp [UInt32.size]; omega)

end

end Pisces.Lib
