import Pisces.Mixer.Table
import Mathlib.Tactic.IntervalCases

/-!
# Conversions with the TLVs that `mixer_open` keeps

What `mixer_open` stores is a copy of a dB TLV of the driver, and nothing of it is
looked at again before `mixer_ctl_convert_from_db` reads it. The sizes in the
entries of a range are not checked anywhere. What keeps the walk inside the copy is
its own test: the header is two words, and an entry is entered only if four words
are left before the last two, so the two words of payload of a linear entry are
there too.

So for every gain and every range of raw volumes, all that can go wrong with
entries that are no ranges themselves is that a number gets too large.
-/

namespace Pisces.Mixer

/-- The computation gives something with the property, unless a number gets too
large. -/
def Computes {α : Type} (x : Calc α) (P : α → Prop) : Prop :=
  x = .error .overflow ∨ ∃ a, x = .ok a ∧ P a

section Computes

variable {α β : Type} {P : α → Prop} {Q : β → Prop} {x : Calc α} {f : α → Calc β}

theorem Computes.ok {a : α} (h : P a) : Computes (.ok a) P := .inr ⟨a, rfl, h⟩

theorem Computes.bind (hx : Computes x P) (hf : ∀ a, P a → Computes (f a) Q) :
    Computes (x >>= f) Q := by
  rcases hx with rfl | ⟨a, rfl, ha⟩
  · exact .inl rfl
  · exact hf a ha

theorem computes_long (v : ℤ) : Computes (long v) (fun _ => True) := by
  unfold long
  split
  · exact .ok trivial
  · exact .inl rfl

end Computes

/-- The types of a TLV that is no range. -/
def LeafType (type : UInt32) : Prop :=
  type = sndCtlTlvtDbScale ∨ type = sndCtlTlvtDbMinmax ∨ type = sndCtlTlvtDbMinmaxMute ∨
    type = sndCtlTlvtDbLinear

/-- The entries of a range, in the `n` words left of its payload, are no ranges. -/
inductive Leaves : ℕ → List UInt32 → Prop
  | done {n : ℕ} {words : List UInt32} : n < 6 → Leaves n words
  | entry {n : ℕ} {lo hi type size : UInt32} {more : List UInt32} : LeafType type →
      Leaves (n - ((intIndex size).toNat + 4))
        ((lo :: hi :: type :: size :: more).drop ((intIndex size).toNat + 4)) →
      Leaves n (lo :: hi :: type :: size :: more)

section Leaf

variable {linear : (min max rangemin rangemax dbGain xdir : ℤ) → ℤ} {type size a b : UInt32}
  {rest : List UInt32}

theorem LeafType.ne_range (h : LeafType type) : type ≠ sndCtlTlvtDbRange := by
  rcases h with rfl | rfl | rfl | rfl <;> simp [types_ne]

theorem LeafType.getDbRange (h : LeafType type) (rangemin rangemax : ℤ) (out : Option (ℤ × ℤ)) :
    Computes (sndTlvGetDbRange (type :: size :: a :: b :: rest) rangemin rangemax out)
      (fun r => r.1 = 0 ∧ r.2.isSome) := by
  rw [getDbRange_of_ne h.ne_range, getDbRangeOf]
  simp only [word_zero, word_succ, bind_ok]
  rcases h with rfl | rfl | rfl | rfl
  · rw [if_pos rfl]
    refine (computes_long _).bind fun span _ => (computes_long _).bind fun up _ => ?_
    exact (computes_long _).bind fun max _ => .ok ⟨rfl, rfl⟩
  all_goals
    simp only [types_ne, if_false, if_true, or_false, or_true]
    exact .ok ⟨rfl, rfl⟩

theorem computes_fromLinear (min max : ℤ) (mutes : Bool) (rangemin rangemax dbGain xdir : ℤ) :
    Computes (fromLinear min max mutes rangemin rangemax dbGain xdir) (fun _ => True) := by
  unfold fromLinear
  split
  · split
    · exact computes_long _
    · exact .ok trivial
  · split
    · exact .ok trivial
    · refine (computes_long _).bind fun _ _ => (computes_long _).bind fun _ _ => ?_
      refine (computes_long _).bind fun v _ => (computes_long _).bind fun span _ => ?_
      split
      · exact (computes_long _).bind fun _ _ => computes_long _
      · exact computes_long _

theorem LeafType.convertFromDb (h : LeafType type) (rangemin rangemax dbGain xdir : ℤ) :
    Computes (sndTlvConvertFromDb linear (type :: size :: a :: b :: rest) rangemin rangemax dbGain
      xdir) (fun r => r.1 = 0 ∧ r.2.isSome) := by
  rw [convertFromDb_of_ne h.ne_range, fromDbOf]
  simp only [word_zero, word_succ, bind_ok]
  rcases h with rfl | rfl | rfl | rfl
  · rw [if_pos rfl]
    refine (computes_long _).bind fun span _ => (computes_long _).bind fun up _ => ?_
    refine (computes_long _).bind fun max _ => ?_
    exact (computes_fromLinear ..).bind fun v _ => .ok ⟨rfl, rfl⟩
  all_goals simp only [types_ne, if_false, if_true, or_false, or_true]
  · exact (computes_fromLinear ..).bind fun v _ => .ok ⟨rfl, rfl⟩
  · exact (computes_fromLinear ..).bind fun v _ => .ok ⟨rfl, rfl⟩
  · repeat' split
    all_goals exact .ok ⟨rfl, rfl⟩

end Leaf

/-! ## The walk stays in the words -/

/-- Where there is an entry, there are the two words of its payload. -/
theorem Leaves.payload {n : ℕ} {more : List UInt32} {lo hi type size : UInt32} (hn : 6 ≤ n)
    (hlen : n ≤ (lo :: hi :: type :: size :: more).length) : ∃ a b rest, more = a :: b :: rest := by
  simp only [List.length_cons] at hlen
  match more with
  | a :: b :: rest => exact ⟨a, b, rest, rfl⟩
  | [] | [_] =>
      simp only [List.length_cons, List.length_nil] at hlen
      omega

theorem Leaves.fromDbLoop {linear : (min max rangemin rangemax dbGain xdir : ℤ) → ℤ}
    {rangemax db xdir : ℤ} {len n : ℕ} {cur : List UInt32} (h : Leaves n cur) :
    ∀ {pos : ℕ} {prev : ℤ} {dbs : Option (ℤ × ℤ)}, n ≤ cur.length → 2 ≤ pos → n = len + 2 - pos →
    Computes (fromDbLoop linear cur pos len rangemax db xdir prev dbs)
      (fun r => r.1 = 0 ∧ r.2.isSome) := by
  induction h with
  | done hn =>
      intro pos prev dbs _ hpos hlen
      rw [Mixer.fromDbLoop.eq_def, if_neg (by omega)]
      exact .ok ⟨rfl, rfl⟩
  | @entry n lo hi type size more htype _ ih =>
      intro pos prev dbs hin hpos hlen
      by_cases hgo : pos + 4 ≤ len
      · obtain ⟨a, b, rest, rfl⟩ := payload (by omega) hin
        rw [Mixer.fromDbLoop, if_pos hgo]
        generalize (if rangemax < toInt hi then rangemax else toInt hi) = submax
        refine (htype.getDbRange _ _ _).bind ?_
        rintro ⟨err, r⟩ ⟨-, hsome⟩
        obtain ⟨⟨dbmin, dbmax⟩, rfl⟩ := Option.isSome_iff_exists.mp hsome
        simp only [written, bind_ok, word_zero, word_succ]
        split
        · exact htype.convertFromDb _ _ _ _
        · split
          · exact .ok ⟨rfl, rfl⟩
          · split
            · exact .ok ⟨rfl, rfl⟩
            · refine ih ?_ (by omega) (by omega)
              rw [List.length_drop]
              omega
      · rw [Mixer.fromDbLoop.eq_def, if_neg hgo]
        exact .ok ⟨rfl, rfl⟩

/-! ## The words of a copy -/

end Pisces.Mixer
