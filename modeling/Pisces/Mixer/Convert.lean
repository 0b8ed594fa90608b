import Pisces.Mixer.Open
import Mathlib.Algebra.Order.Field.Rat
import Mathlib.Order.Bounds.Basic
import Mathlib.Tactic.FieldSimp
import Mathlib.Tactic.Linarith
import Mathlib.Tactic.Positivity

/-!
# From a gain to a raw volume

A dB TLV says which gain a raw volume has. `snd_tlv_get_dB_range` gives the gains
at the two ends and `snd_tlv_convert_from_dB` goes back from a gain to a raw
volume, for a linear TLV by one division and for a range by a walk over its
entries, each a TLV for a part of the raw volumes.

The model keeps what can go wrong apart from the result: a word that is not there,
a local that is read before it is written, and a 32-bit number that is too large.
`long` is 32 bits wide here, as `int` is. A function with pointers for its results
takes what is there and gives what it leaves there.
-/

namespace Pisces.Mixer

inductive Fault where
  /-- A read beyond the words. -/
  | stray
  /-- A read of a local that nothing was written to. -/
  | unset
  | overflow
  deriving DecidableEq, Repr

abbrev Calc := Except Fault

/-- `tlv[i]` -/
def word (tlv : List UInt32) (i : ℕ) : Calc UInt32 :=
  match tlv[i]? with
  | some w => .ok w
  | none => .error .stray

/-- A local, if it was written to. -/
def written {α : Type} : Option α → Calc α
  | some a => .ok a
  | none => .error .unset

/-- The value of a signed 32-bit expression. -/
def long (v : ℤ) : Calc ℤ :=
  if -2147483648 ≤ v ∧ v ≤ 2147483647 then .ok v else .error .overflow

/-- `(int)w` -/
def toInt (w : UInt32) : ℤ := w.toInt32.toInt

/-- `SND_CTL_TLV_DB_GAIN_MUTE` -/
def dbGainMute : ℤ := -9999999

/-- `tlv[3] & 0xffff` -/
def scaleStep (w : UInt32) : ℤ := (w &&& 0xffff).toNat

/-- `tlv[3] & 0x10000` -/
def scaleMutes (w : UInt32) : Bool := w &&& 0x10000 != 0

/-- The cases of `snd_tlv_get_dB_range` that are not `SND_CTL_TLVT_DB_RANGE`: its
result and what it leaves in `*min` and `*max`. -/
def getDbRangeOf (type : UInt32) (tlv : List UInt32) (rangemin rangemax : ℤ)
    (out : Option (ℤ × ℤ)) : Calc (ℤ × Option (ℤ × ℤ)) := do
  if type = sndCtlTlvtDbScale then
    let w ← word tlv 3
    let base ← word tlv 2
    let min := if scaleMutes w then dbGainMute else toInt base
    let up ← long (scaleStep w * (← long (rangemax - rangemin)))
    let max ← long (toInt base + up)
    return (0, some (min, max))
  else if type = sndCtlTlvtDbMinmax ∨ type = sndCtlTlvtDbLinear then
    return (0, some (toInt (← word tlv 2), toInt (← word tlv 3)))
  else if type = sndCtlTlvtDbMinmaxMute then
    return (0, some (dbGainMute, toInt (← word tlv 3)))
  else return (-einval, out)

mutual

/-- `snd_tlv_get_dB_range` -/
def sndTlvGetDbRange (tlv : List UInt32) (rangemin rangemax : ℤ) (out : Option (ℤ × ℤ)) :
    Calc (ℤ × Option (ℤ × ℤ)) := do
  let type ← word tlv 0
  if type = sndCtlTlvtDbRange then
    let len := intIndex (← word tlv 1)
    if len > maxTlvRangeSize then return (-einval, out)
    else getDbRangeLoop (tlv.drop 2) 2 len.toNat rangemax out
  else getDbRangeOf type tlv rangemin rangemax out
termination_by (tlv.length, 1)
decreasing_by
  simp only [Prod.lex_def, List.length_drop]
  omega

/-- Its loop over the entries of a range, from `tlv + pos` on. -/
def getDbRangeLoop (cur : List UInt32) (pos len : ℕ) (rangemax : ℤ) (out : Option (ℤ × ℤ)) :
    Calc (ℤ × Option (ℤ × ℤ)) :=
  if pos + 4 ≤ len then
    match cur with
    | lo :: hi :: sub => do
        let submin := toInt lo
        let submax := if rangemax < toInt hi then rangemax else toInt hi
        let (err, r) ← sndTlvGetDbRange sub submin submax none
        if err < 0 then return (err, out)
        else
          let (rmin, rmax) ← written r
          let new ←
            if pos > 2 then do
              let (min, max) ← written out
              pure (if rmin < min then rmin else min, if rmax > max then rmax else max)
            else pure (rmin, rmax)
          if rangemax = submax then return (0, some new)
          else
            let next := (intIndex (← word sub 1)).toNat + 4
            getDbRangeLoop ((lo :: hi :: sub).drop next) (pos + next) len rangemax (some new)
    | _ => .error .stray
  else return (0, out)
termination_by (cur.length, 0)
decreasing_by
  · simp only [Prod.lex_def, List.length_cons]
    omega
  · simp only [Prod.lex_def, List.length_drop, List.length_cons]
    omega

end

/-- What the linear cases of `snd_tlv_convert_from_dB` have in common: `mutes` is
their test for a TLV that mutes. -/
def fromLinear (min max : ℤ) (mutes : Bool) (rangemin rangemax dbGain xdir : ℤ) : Calc ℤ := do
  if dbGain ≤ min then
    if dbGain > dbGainMute ∧ xdir > 0 ∧ mutes then long (rangemin + 1) else return rangemin
  else if dbGain ≥ max then return rangemax
  else
    let v ← long ((← long (dbGain - min)) * (← long (rangemax - rangemin)))
    let span ← long (max - min)
    let v ← if xdir > 0 then long (v + (span - 1)) else pure v
    long (v.tdiv span + rangemin)

/-- The cases that are not `SND_CTL_TLVT_DB_RANGE`: the result and what is left in
`*value`. The powers of ten of the last one are given with `linear`. -/
def fromDbOf (linear : (min max rangemin rangemax dbGain xdir : ℤ) → ℤ) (type : UInt32)
    (tlv : List UInt32) (rangemin rangemax dbGain xdir : ℤ) : Calc (ℤ × Option ℤ) := do
  if type = sndCtlTlvtDbScale then
    let min := toInt (← word tlv 2)
    let w ← word tlv 3
    let up ← long (scaleStep w * (← long (rangemax - rangemin)))
    let max ← long (min + up)
    let v ← fromLinear min max (scaleMutes w) rangemin rangemax dbGain xdir
    return (0, some v)
  else if type = sndCtlTlvtDbMinmax ∨ type = sndCtlTlvtDbMinmaxMute then
    let min := toInt (← word tlv 2)
    let max := toInt (← word tlv 3)
    let v ← fromLinear min max (type = sndCtlTlvtDbMinmaxMute) rangemin rangemax dbGain xdir
    return (0, some v)
  else if type = sndCtlTlvtDbLinear then
    let min := toInt (← word tlv 2)
    let max := toInt (← word tlv 3)
    if dbGain ≤ min then return (0, some rangemin)
    else if dbGain ≥ max then return (0, some rangemax)
    else return (0, some (linear min max rangemin rangemax dbGain xdir))
  else return (-einval, none)

mutual

/-- `snd_tlv_convert_from_dB` -/
def sndTlvConvertFromDb (linear : (min max rangemin rangemax dbGain xdir : ℤ) → ℤ)
    (tlv : List UInt32) (rangemin rangemax dbGain xdir : ℤ) : Calc (ℤ × Option ℤ) := do
  let type ← word tlv 0
  if type = sndCtlTlvtDbRange then
    let len := intIndex (← word tlv 1)
    if len < 6 ∨ len > maxTlvRangeSize then return (-einval, none)
    else fromDbLoop linear (tlv.drop 2) 2 len.toNat rangemax dbGain xdir 0 none
  else fromDbOf linear type tlv rangemin rangemax dbGain xdir
termination_by (tlv.length, 1)
decreasing_by
  simp only [Prod.lex_def, List.length_drop]
  omega

/-- Its loop over the entries of a range, with `prev_submax` and with what is in
`dbmin` and `dbmax`. -/
def fromDbLoop (linear : (min max rangemin rangemax dbGain xdir : ℤ) → ℤ) (cur : List UInt32)
    (pos len : ℕ) (rangemax dbGain xdir prevSubmax : ℤ) (db : Option (ℤ × ℤ)) :
    Calc (ℤ × Option ℤ) :=
  if pos + 4 ≤ len then
    match cur with
    | lo :: hi :: sub => do
        let submin := toInt lo
        let submax := if rangemax < toInt hi then rangemax else toInt hi
        let (err, db) ← sndTlvGetDbRange sub submin submax db
        let (dbmin, dbmax) ← written db
        if err = 0 ∧ dbGain ≥ dbmin ∧ dbGain ≤ dbmax then
          sndTlvConvertFromDb linear sub submin submax dbGain xdir
        else if dbGain < dbmin then
          return (0, some (if xdir > 0 ∨ pos = 2 then submin else prevSubmax))
        else if rangemax = submax then return (0, some submax)
        else
          let next := (intIndex (← word sub 1)).toNat + 4
          fromDbLoop linear ((lo :: hi :: sub).drop next) (pos + next) len rangemax dbGain xdir
            submax (some (dbmin, dbmax))
    | _ => .error .stray
  else return (0, some prevSubmax)
termination_by (cur.length, 0)
decreasing_by
  · simp only [Prod.lex_def, List.length_cons]
    omega
  · simp only [Prod.lex_def, List.length_drop, List.length_cons]
    omega

end

/-- `mixer_tlv_convert_from_db` -/
def mixerTlvConvertFromDb (linear : (min max rangemin rangemax dbGain xdir : ℤ) → ℤ)
    (tlv : List UInt32) (rangemin rangemax dbGain : ℤ) : Calc (ℤ × Option ℤ) :=
  sndTlvConvertFromDb linear tlv rangemin rangemax dbGain 0

/-- A linear TLV for the raw volumes from `lo` to `hi`: its type and the two words
of its payload. -/
structure Entry where
  lo : ℤ
  hi : ℤ
  type : UInt32
  a : UInt32
  b : UInt32
  deriving DecidableEq, Repr

namespace Entry

variable (e : Entry)

/-- The gain where the line begins. -/
def low : ℤ := toInt e.a

/-- The gain where it ends. -/
def high : ℤ :=
  if e.type = sndCtlTlvtDbScale then e.low + scaleStep e.b * (e.hi - e.lo) else toInt e.b

/-- The lowest volume is silent. -/
def mutes : Bool :=
  if e.type = sndCtlTlvtDbScale then scaleMutes e.b else e.type = sndCtlTlvtDbMinmaxMute

/-- The gain of the lowest volume. -/
def bottom : ℤ := if e.mutes then dbGainMute else e.low

/-- The gain of the raw volume `u`. -/
def gain (u : ℤ) : ℚ :=
  if u = e.lo then e.bottom else e.low + (u - e.lo) * (e.high - e.low) / (e.hi - e.lo)

/-- The line rises. -/
structure Rises : Prop where
  linear : e.type = sndCtlTlvtDbScale ∨ e.type = sndCtlTlvtDbMinmax ∨
    e.type = sndCtlTlvtDbMinmaxMute
  range : e.lo ≤ e.hi
  level : e.low ≤ e.high
  rises : e.lo < e.hi → e.low < e.high
  above : e.bottom ≤ e.low

/-- Nothing that is computed from it is too large for 32 bits. -/
structure Fits : Prop where
  least : -2147483648 ≤ e.lo
  most : e.hi ≤ 2147483647 ∧ e.high ≤ 2147483647
  width : e.hi - e.lo ≤ 2147483647 ∧ e.high - e.low ≤ 2147483647
  area : (e.high - e.low) * (e.hi - e.lo) ≤ 2147483647

structure Good : Prop extends e.Rises, e.Fits

/-- The raw volume that the conversion gives. -/
def raw (db : ℤ) : ℤ :=
  if db ≤ e.low then e.lo
  else if db ≥ e.high then e.hi
  else (db - e.low) * (e.hi - e.lo) / (e.high - e.low) + e.lo

end Entry

theorem long_ok {v : ℤ} (lo : -2147483648 ≤ v) (hi : v ≤ 2147483647) : long v = .ok v :=
  if_pos ⟨lo, hi⟩

theorem toInt_bounds (w : UInt32) : -2147483648 ≤ toInt w ∧ toInt w ≤ 2147483647 := by
  have hle := w.toInt32.le_toInt
  have hlt := w.toInt32.toInt_lt
  unfold toInt
  omega

theorem bind_ok {α β : Type} (x : α) (f : α → Calc β) : (Except.ok x >>= f) = f x := rfl

theorem word_zero (w : UInt32) (ws : List UInt32) : word (w :: ws) 0 = .ok w := rfl

theorem word_succ (w : UInt32) (ws : List UInt32) (i : ℕ) :
    word (w :: ws) (i + 1) = word ws i := rfl

/-- The types are all different. -/
theorem types_ne :
    sndCtlTlvtDbScale ≠ sndCtlTlvtDbRange ∧ sndCtlTlvtDbMinmax ≠ sndCtlTlvtDbRange ∧
    sndCtlTlvtDbMinmaxMute ≠ sndCtlTlvtDbRange ∧ sndCtlTlvtDbLinear ≠ sndCtlTlvtDbRange ∧
    sndCtlTlvtDbMinmax ≠ sndCtlTlvtDbScale ∧ sndCtlTlvtDbMinmaxMute ≠ sndCtlTlvtDbScale ∧
    sndCtlTlvtDbLinear ≠ sndCtlTlvtDbScale ∧ sndCtlTlvtDbMinmaxMute ≠ sndCtlTlvtDbMinmax ∧
    sndCtlTlvtDbMinmaxMute ≠ sndCtlTlvtDbLinear ∧ sndCtlTlvtDbMinmax ≠ sndCtlTlvtDbMinmaxMute ∧
    sndCtlTlvtDbLinear ≠ sndCtlTlvtDbMinmax ∧ sndCtlTlvtDbLinear ≠ sndCtlTlvtDbMinmaxMute := by
  decide

section Leaf

variable {e : Entry} {db : ℤ} {type size : UInt32} {rest : List UInt32}
  {linear : (min max rangemin rangemax dbGain xdir : ℤ) → ℤ}

theorem getDbRange_of_ne (h : type ≠ sndCtlTlvtDbRange) (rangemin rangemax : ℤ)
    (out : Option (ℤ × ℤ)) :
    sndTlvGetDbRange (type :: rest) rangemin rangemax out =
      getDbRangeOf type (type :: rest) rangemin rangemax out := by
  rw [sndTlvGetDbRange, word_zero, bind_ok, if_neg h]

theorem convertFromDb_of_ne (h : type ≠ sndCtlTlvtDbRange) (rangemin rangemax dbGain xdir : ℤ) :
    sndTlvConvertFromDb linear (type :: rest) rangemin rangemax dbGain xdir =
      fromDbOf linear type (type :: rest) rangemin rangemax dbGain xdir := by
  rw [sndTlvConvertFromDb, word_zero, bind_ok, if_neg h]

theorem Entry.low_bounds : -2147483648 ≤ e.low ∧ e.low ≤ 2147483647 := toInt_bounds e.a

theorem Entry.Good.type_ne (h : e.Good) : e.type ≠ sndCtlTlvtDbRange := by
  rcases h.linear with htype | htype | htype <;> simp [htype, types_ne]

/-- The end of a scale is computed as it is meant. -/
theorem Entry.Good.scale_high (h : e.Good) (htype : e.type = sndCtlTlvtDbScale) {α : Type}
    (k : ℤ → Calc α) :
    (do
      let up ← long (scaleStep e.b * (← long (e.hi - e.lo)))
      let max ← long (toInt e.a + up)
      k max) = k e.high := by
  obtain ⟨hlow, -⟩ := @Entry.low_bounds e
  have hlevel := h.level
  have hrange := h.range
  obtain ⟨-, hhigh⟩ := h.most
  obtain ⟨hw, hg⟩ := h.width
  have hup : scaleStep e.b * (e.hi - e.lo) = e.high - e.low := by
    rw [Entry.high, if_pos htype]
    omega
  have hend : toInt e.a + (e.high - e.low) = e.high := by
    rw [Entry.low]
    omega
  rw [long_ok (by omega) hw, bind_ok, hup, long_ok (by omega) hg, bind_ok, hend,
    long_ok (by omega) hhigh, bind_ok]

theorem Entry.Good.getDbRange (h : e.Good) (out : Option (ℤ × ℤ)) :
    sndTlvGetDbRange (e.type :: size :: e.a :: e.b :: rest) e.lo e.hi out =
      .ok (0, some (e.bottom, e.high)) := by
  rw [getDbRange_of_ne h.type_ne]
  rcases h.linear with htype | htype | htype
  · simp only [getDbRangeOf, htype, if_true, word_zero, word_succ, bind_ok, Entry.bottom,
      Entry.mutes]
    exact h.scale_high htype _
  · simp [getDbRangeOf, word_zero, word_succ, bind_ok, htype, types_ne, Entry.bottom, Entry.mutes,
      Entry.high, Entry.low]
  · simp [getDbRangeOf, word_zero, word_succ, htype, types_ne, Entry.bottom, Entry.mutes,
      Entry.high]

theorem Entry.Good.raw_bounds (h : e.Good) : e.lo ≤ e.raw db ∧ e.raw db ≤ e.hi := by
  have hrange := h.range
  unfold Entry.raw
  split
  · exact ⟨Int.le_refl _, hrange⟩
  · split
    · exact ⟨hrange, Int.le_refl _⟩
    · have hspan : 0 < e.high - e.low := by omega
      have hq : 0 ≤ (db - e.low) * (e.hi - e.lo) / (e.high - e.low) :=
        Int.ediv_nonneg (Int.mul_nonneg (by omega) (by omega)) (by omega)
      have hq' : (db - e.low) * (e.hi - e.lo) / (e.high - e.low) ≤ e.hi - e.lo := by
        refine Int.ediv_le_of_le_mul hspan ?_
        rw [Int.mul_comm (e.hi - e.lo)]
        exact Int.mul_le_mul_of_nonneg_right (by omega) (by omega)
      omega

/-- The division stays in its range, and is the one that rounds down. -/
theorem Entry.Good.fromLinear (h : e.Good) (mutes : Bool) :
    fromLinear e.low e.high mutes e.lo e.hi db 0 = .ok (e.raw db) := by
  obtain ⟨hlow, -⟩ := @Entry.low_bounds e
  have hrange := h.range
  obtain ⟨hw, hg⟩ := h.width
  have hleast := h.least
  obtain ⟨hmost, -⟩ := h.most
  unfold Mixer.fromLinear Entry.raw
  split
  · simp only [gt_iff_lt, Int.lt_irrefl, false_and, and_false, if_false]
    rfl
  · next hdblow =>
      split
      · rfl
      · next hdbhigh =>
          have hv : (db - e.low) * (e.hi - e.lo) ≤ (e.high - e.low) * (e.hi - e.lo) :=
            Int.mul_le_mul_of_nonneg_right (by omega) (by omega)
          have hpos : 0 ≤ (db - e.low) * (e.hi - e.lo) := Int.mul_nonneg (by omega) (by omega)
          have harea := h.area
          obtain ⟨hraw, hraw'⟩ := @raw_bounds e db h
          rw [Entry.raw, if_neg hdblow, if_neg hdbhigh] at hraw hraw'
          rw [long_ok (by omega) (by omega), bind_ok, long_ok (by omega) hw, bind_ok,
            long_ok (by omega) (by omega), bind_ok, long_ok (by omega) hg, bind_ok]
          show long (((db - e.low) * (e.hi - e.lo)).tdiv (e.high - e.low) + e.lo) = _
          rw [Int.tdiv_eq_ediv_of_nonneg hpos]
          exact long_ok (by omega) (by omega)

theorem Entry.Good.convertFromDb (h : e.Good) :
    sndTlvConvertFromDb linear (e.type :: size :: e.a :: e.b :: rest) e.lo e.hi db 0 =
      .ok (0, some (e.raw db)) := by
  rw [convertFromDb_of_ne h.type_ne]
  rcases h.linear with htype | htype | htype
  · simp only [fromDbOf, htype, if_true, word_zero, word_succ, bind_ok]
    rw [h.scale_high htype, ← Entry.low, h.fromLinear]
    rfl
  all_goals
    have hhigh : toInt e.b = e.high := by simp [Entry.high, htype, types_ne]
    simp only [fromDbOf, htype, types_ne, if_true, if_false, word_zero, word_succ, bind_ok, or_true,
      true_or, hhigh]
    rw [← Entry.low, h.fromLinear]
    rfl

theorem Entry.gain_lo : e.gain e.lo = e.bottom := if_pos rfl

/-- Above the lowest volume a gain is compared without a division. -/
theorem Entry.gain_le_iff {u : ℤ} (hlo : e.lo < u) (hhi : u ≤ e.hi) :
    e.gain u ≤ db ↔ (u - e.lo) * (e.high - e.low) ≤ (db - e.low) * (e.hi - e.lo) := by
  have hpos : (0 : ℚ) < (e.hi : ℚ) - e.lo := by
    have hcast : (e.lo : ℚ) < e.hi := by exact_mod_cast Int.lt_of_lt_of_le hlo hhi
    linarith
  rw [Entry.gain, if_neg (by omega), ← le_sub_iff_add_le', div_le_iff₀ hpos]
  exact_mod_cast Iff.rfl

theorem Entry.gain_eq_iff {u : ℤ} (hlo : e.lo < u) (hhi : u ≤ e.hi) :
    e.gain u = db ↔ (u - e.lo) * (e.high - e.low) = (db - e.low) * (e.hi - e.lo) := by
  have hpos : (e.hi : ℚ) - e.lo ≠ 0 := by
    have hcast : (e.lo : ℚ) < e.hi := by exact_mod_cast Int.lt_of_lt_of_le hlo hhi
    linarith
  rw [Entry.gain, if_neg (by omega), ← eq_sub_iff_add_eq', div_eq_iff hpos]
  exact_mod_cast Iff.rfl

/-- No gain is below the first. -/
theorem Entry.Good.bottom_le (h : e.Good) {u : ℤ} (hlo : e.lo ≤ u) (hhi : u ≤ e.hi)
    (hg : e.gain u ≤ db) : e.bottom ≤ db := by
  rcases Int.le_iff_lt_or_eq.mp hlo with hlo | rfl
  · rw [Entry.gain_le_iff hlo hhi] at hg
    have hrises := h.rises (by omega)
    have hpos : 0 < (u - e.lo) * (e.high - e.low) := Int.mul_pos (by omega) (by omega)
    have habove := h.above
    by_contra hno
    have hneg : (db - e.low) * (e.hi - e.lo) ≤ 0 :=
      Int.mul_nonpos_of_nonpos_of_nonneg (by omega) (by omega)
    omega
  · rw [Entry.gain_lo] at hg
    exact_mod_cast hg

/-- Nor is the gain of the highest volume above the last. -/
theorem Entry.Good.gain_hi (h : e.Good) (hdb : e.high ≤ db) : e.gain e.hi ≤ db := by
  have hrange := h.range
  have hlevel := h.level
  have habove := h.above
  rcases Int.le_iff_lt_or_eq.mp hrange with hlo | heq
  · rw [Entry.gain_le_iff hlo (Int.le_refl _), Int.mul_comm]
    exact Int.mul_le_mul_of_nonneg_right (by omega) (by omega)
  · rw [← heq, Entry.gain_lo]
    have hle : e.bottom ≤ db := by omega
    exact_mod_cast hle

/-- The conversion gives the highest volume whose gain is not above the one asked
for. -/
theorem Entry.Good.gain_le_iff_raw (h : e.Good) {u : ℤ} (hlo : e.lo < u) (hhi : u ≤ e.hi) :
    e.gain u ≤ db ↔ u ≤ e.raw db := by
  have hrises := h.rises (by omega)
  rw [Entry.gain_le_iff hlo hhi, Entry.raw]
  split
  · next hdb =>
      have hpos : 0 < (u - e.lo) * (e.high - e.low) := Int.mul_pos (by omega) (by omega)
      have hneg : (db - e.low) * (e.hi - e.lo) ≤ 0 :=
        Int.mul_nonpos_of_nonpos_of_nonneg (by omega) (by omega)
      omega
  · split
    · next hdb =>
        have hle : (u - e.lo) * (e.high - e.low) ≤ (db - e.low) * (e.hi - e.lo) := by
          rw [Int.mul_comm (db - e.low)]
          exact Int.mul_le_mul (by omega) (by omega) (by omega) (by omega)
        omega
    · rw [← Int.le_ediv_iff_mul_le (by omega)]
      omega

end Leaf

end Pisces.Mixer
