import Mathlib.Data.Int.Notation
import Mathlib.Data.Nat.Notation

/-!
# strtol

strtol reads white space, a sign and digits, and stops at the first byte that
cannot go on. It is a machine that takes the bytes one at a time; what a text
has done to it is its state, and so what may follow the text is no part of that.

A text decides the number by itself if the machine has stopped in it, or if the
digits are out of range already. Otherwise one more digit makes a difference.
-/

namespace Pisces.Lib.Strtol

def isSpace (b : UInt8) : Bool := b = 32 || 9 ≤ b && b ≤ 13

def isDigit (b : UInt8) : Bool := 48 ≤ b && b ≤ 57

def digit (b : UInt8) : ℕ := b.toNat - 48

/-- Where in the number strtol is. -/
inductive Scan where
  | blank
  | sign (neg : Bool)
  | digits (neg : Bool) (n : ℕ)
  | stopped (neg : Bool) (n : ℕ)
  deriving DecidableEq

def Scan.next : Scan → UInt8 → Scan
  | .blank, b =>
      if isSpace b then .blank
      else if b = 45 then .sign true
      else if b = 43 then .sign false
      else if isDigit b then .digits false (digit b)
      else .stopped false 0
  | .sign neg, b => if isDigit b then .digits neg (digit b) else .stopped neg 0
  | .digits neg n, b => if isDigit b then .digits neg (n * 10 + digit b) else .stopped neg n
  | .stopped neg n, _ => .stopped neg n

def scan (s : List UInt8) : Scan := s.foldl Scan.next .blank

def signed (neg : Bool) (n : ℕ) : ℤ := if neg then -n else n

def Scan.value : Scan → ℤ
  | .blank | .sign _ => 0
  | .digits neg n | .stopped neg n => signed neg n

section

variable (lo hi : ℤ)

/-- The value in the range, and whether it is another one (`ERANGE`). -/
def clamp (v : ℤ) : ℤ × Bool :=
  if v < lo then (lo, true) else if hi < v then (hi, true) else (v, false)

/-- `strtol(s, &end, 10)` for a long from `lo` to `hi`, and whether errno is set. -/
def strtol (s : List UInt8) : ℤ × Bool := clamp lo hi (scan s).value

/-- What follows makes no difference any more. -/
def Scan.Decided : Scan → Prop
  | .blank | .sign _ => False
  | .digits neg n => signed neg n < lo ∨ hi < signed neg n
  | .stopped _ _ => True

instance (sc : Scan) : Decidable (sc.Decided lo hi) :=
  match sc with
  | .blank | .sign _ => .isFalse id
  | .digits neg n => inferInstanceAs (Decidable (signed neg n < lo ∨ hi < signed neg n))
  | .stopped _ _ => .isTrue trivial

end

variable {lo hi : ℤ} {sc : Scan} {s : List UInt8}

theorem clamp_low {v : ℤ} (h : v < lo) : clamp lo hi v = (lo, true) := if_pos h

theorem clamp_high {v : ℤ} (hle : lo ≤ hi) (h : hi < v) : clamp lo hi v = (hi, true) := by
  rw [clamp, if_neg (by omega), if_pos h]

theorem clamp_inside {v : ℤ} (h : lo ≤ v ∧ v ≤ hi) : clamp lo hi v = (v, false) := by
  rw [clamp, if_neg (by omega), if_neg (by omega)]

theorem strtol_range (hle : lo ≤ hi) (s : List UInt8) :
    lo ≤ (strtol lo hi s).1 ∧ (strtol lo hi s).1 ≤ hi := by
  rw [strtol, clamp]
  split
  · exact ⟨Int.le_refl lo, hle⟩
  · split
    · exact ⟨hle, Int.le_refl hi⟩
    · omega

/-- More digits lead farther out of the range. -/
theorem decided_digits {neg : Bool} {n m : ℕ} (hrange : lo ≤ 0 ∧ 0 ≤ hi) (hnm : n ≤ m)
    (h : signed neg n < lo ∨ hi < signed neg n) :
    (signed neg m < lo ∨ hi < signed neg m) ∧
      clamp lo hi (signed neg m) = clamp lo hi (signed neg n) := by
  unfold signed at *
  cases neg with
  | true =>
      simp only [if_true] at h ⊢
      have hlow : -(n : ℤ) < lo := by omega
      have hlow' : -(m : ℤ) < lo := by omega
      exact ⟨.inl hlow', by rw [clamp_low hlow, clamp_low hlow']⟩
  | false =>
      simp only [Bool.false_eq_true, if_false] at h ⊢
      have hhigh : hi < (n : ℤ) := by omega
      have hhigh' : hi < (m : ℤ) := by omega
      exact ⟨.inr hhigh', by rw [clamp_high (by omega) hhigh, clamp_high (by omega) hhigh']⟩

theorem Scan.Decided.next (hrange : lo ≤ 0 ∧ 0 ≤ hi) (h : sc.Decided lo hi) (b : UInt8) :
    (sc.next b).Decided lo hi ∧ clamp lo hi (sc.next b).value = clamp lo hi sc.value := by
  cases sc with
  | blank => exact h.elim
  | sign neg => exact h.elim
  | digits neg n =>
      rw [Scan.next]
      split
      · exact decided_digits hrange (by omega) h
      · exact ⟨trivial, rfl⟩
  | stopped neg n => exact ⟨trivial, rfl⟩

/-- Nothing that follows a decided text matters. -/
theorem strtol_append (hrange : lo ≤ 0 ∧ 0 ≤ hi) (h : (scan s).Decided lo hi) (t : List UInt8) :
    strtol lo hi (s ++ t) = strtol lo hi s := by
  have hfold : ∀ sc : Scan, sc.Decided lo hi →
      clamp lo hi (t.foldl Scan.next sc).value = clamp lo hi sc.value := by
    induction t with
    | nil => exact fun _ _ => rfl
    | cons b t ih =>
        intro sc hsc
        obtain ⟨hnext, hvalue⟩ := hsc.next hrange b
        rw [List.foldl_cons, ih _ hnext, hvalue]
  rw [strtol, scan, List.foldl_append]
  exact hfold _ h

theorem foldl_stopped (neg : Bool) (n : ℕ) (t : List UInt8) :
    t.foldl Scan.next (.stopped neg n) = .stopped neg n := by
  induction t with
  | nil => rfl
  | cons b t ih => exact ih

/-- A zero byte ends the number. -/
theorem value_zero (sc : Scan) (t : List UInt8) :
    ((0 :: t).foldl Scan.next sc).value = sc.value := by
  have hstop : ∃ neg n, sc.next 0 = .stopped neg n ∧ sc.value = signed neg n := by
    cases sc with
    | blank => exact ⟨false, 0, rfl, rfl⟩
    | sign neg => exact ⟨neg, 0, rfl, by cases neg <;> rfl⟩
    | digits neg n => exact ⟨neg, n, rfl, rfl⟩
    | stopped neg n => exact ⟨neg, n, rfl, rfl⟩
  obtain ⟨neg, n, hnext, hvalue⟩ := hstop
  rw [List.foldl_cons, hnext, foldl_stopped, hvalue]
  rfl

theorem strtol_zero (s t : List UInt8) : strtol lo hi (s ++ 0 :: t) = strtol lo hi s := by
  rw [strtol, scan, List.foldl_append, value_zero]
  rfl

/-- The digit 5 after a text that is not decided. -/
theorem strtol_five (hrange : lo ≤ 0 ∧ 0 ≤ hi) (h : ¬ (scan s).Decided lo hi) (t : List UInt8) :
    strtol lo hi (s ++ 53 :: 0 :: t) ≠ strtol lo hi s := by
  have hvalue : strtol lo hi (s ++ 53 :: 0 :: t) = clamp lo hi ((scan s).next 53).value := by
    rw [strtol, scan, List.foldl_append, List.foldl_cons, value_zero]
    rfl
  -- inside the range the value shows, and outside of it the flag
  have hne : ∀ v v' : ℤ, lo ≤ v ∧ v ≤ hi → v' ≠ v → clamp lo hi v' ≠ clamp lo hi v := by
    intro v v' hv hne heq
    rw [clamp_inside hv] at heq
    by_cases hv' : lo ≤ v' ∧ v' ≤ hi
    · rw [clamp_inside hv', Prod.mk.injEq] at heq
      exact hne heq.1
    · by_cases hlow : v' < lo
      · rw [clamp_low hlow, Prod.mk.injEq] at heq
        cases heq.2
      · rw [clamp_high (by omega) (by omega), Prod.mk.injEq] at heq
        cases heq.2
  rw [hvalue, strtol]
  cases hsc : scan s with
  | blank => exact hne 0 5 hrange (by decide)
  | sign neg => exact hne 0 (signed neg 5) hrange (by cases neg <;> decide)
  | digits neg n =>
      rw [hsc, Scan.Decided, not_or] at h
      refine hne (signed neg n) (signed neg (n * 10 + 5)) (by omega) ?_
      unfold signed
      cases neg <;> simp only [Bool.false_eq_true, if_false, if_true] <;> omega
  | stopped neg n =>
      rw [hsc] at h
      exact absurd trivial h

end Pisces.Lib.Strtol
