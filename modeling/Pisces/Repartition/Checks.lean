import Pisces.Repartition.Resize

/-!
# What the range checks let through

The size asked for is compared with the minimum and with what there is, and then
computed with, each time by an awk program of its own. If it is one number, the
four programs mean the same number. What is left then is how the numbers between
them are printed: a minimum that is not whole has lost all but six digits, and a
size that is not whole can make a number of blocks that is not whole either.
-/

namespace Pisces.Repartition

open Pisces.Lib Pisces.Lib.Awk Pisces.Lib.Script

variable {env : Env} {d : Disk} {f : Fs} {newsize t : Text}

/-! ## What the checks are for -/

/-- The number that awk takes from a text. -/
def argNumber (newsize : Text) : ℚ := num (field (fields ((records newsize).headD [])) 1)

/-- The size data gets: all there is, if no storage is left. -/
def plannedSize (env : Env) (newsize : Text) (d : Disk) : Text :=
  if storageNewsize newsize (getDatastorageSize env d) = ['0'] then getDatastorageSize env d
  else newsize

/-- The size is enough for the filesystem and there is so much, and a filesystem
that is shrunk gets a whole number of blocks that is enough and fits. -/
structure Suits (env : Env) (newsize : Text) (d : Disk) (f : Fs) : Prop where
  enough : (f.minblocks * f.blocksize : ℚ) ≤ (argNumber newsize - shrinkReserveSize) * MiB
  available : argNumber newsize ≤ num (getDatastorageSize env d)
  blocks : (plan env newsize d).isShrinking →
    ∃ b : ℤ, shrinkBlocks (plan env newsize d).shrinkto d = intText b ∧ f.minblocks ≤ b ∧
      (b * f.blocksize : ℚ) ≤ (argNumber (plannedSize env newsize d) - shrinkReserveSize) * MiB

/-- Whatever neither check stops is suitable. -/
def ChecksSound (env : Env) (newsize : Text) (d : Disk) (f : Fs) : Prop :=
  tooSmall newsize (getDataMinsize d) = false →
    tooLarge newsize (getDatastorageSize env d) = false → Suits env newsize d f

/-! ## Plain sizes -/

/-- A check stops the argument. -/
def Stopped (env : Env) (newsize : Text) (d : Disk) : Prop :=
  tooSmall newsize (getDataMinsize d) = true ∨
    tooLarge newsize (getDatastorageSize env d) = true

/-- The least size of data, in MiB, without any rounding. -/
def minMiB (f : Fs) : ℚ := f.minblocks * f.blocksize / MiB + shrinkReserveSize

/-- How much data gets if `x` MiB are asked for. -/
def planned (env : Env) (x : ℚ) (d : Disk) : ℚ :=
  if sub (num (getDatastorageSize env d)) x < 64 then num (getDatastorageSize env d) else x

/-- If data is shrunk, its new size less the reserve is printed as it is, and is a
whole number of blocks. -/
def WholeBlocks (env : Env) (x : ℚ) (d : Disk) (f : Fs) : Prop :=
  planned env x d < num (getDataSize env d) →
    num (print (sub (planned env x d) shrinkReserveSize)) = planned env x d - shrinkReserveSize ∧
      ∃ b : ℤ, (planned env x d - shrinkReserveSize) * MiB = b * f.blocksize

/-- The argument is one number, with blanks around it or without; it is not
between the minimum as it is printed and the minimum; and what is shrunk to it has
whole blocks. -/
structure PlainSize (env : Env) (newsize t : Text) (d : Disk) (f : Fs) : Prop where
  word : Padded newsize t
  number : looksNumeric t = true
  minimum : num (print (minsizeNumber d)) ≤ num t → minMiB f ≤ num t
  blocks : WholeBlocks env (num t) d f

theorem argNumber_eq (h : Padded newsize t) : argNumber newsize = num t := by
  have hfields := fields_echo_cons h []
  rw [echo, List.intercalate_singleton] at hfields
  rw [argNumber, records_of_oneLine h.oneLine, List.headD_cons, hfields]
  rfl

/-- The minimum is what the filesystem needs and the reserve. -/
theorem minMiB_le_iff (f : Fs) (x : ℚ) :
    minMiB f ≤ x ↔ (f.minblocks * f.blocksize : ℚ) ≤ (x - shrinkReserveSize) * MiB := by
  have hpos : (0 : ℚ) < MiB := by norm_num [MiB]
  rw [minMiB, ← le_sub_iff_add_le, div_le_iff₀ hpos]

/-- The new size is one number too. -/
theorem plannedSize_padded (hpad : Padded newsize t) (h : looksNumeric t = true)
    (hds : IsNumber (getDatastorageSize env d)) :
    ∃ u, Padded (plannedSize env newsize d) u ∧ looksNumeric u = true ∧
      num u = planned env (num t) d := by
  have hzero := storageNewsize_zero hpad hds
  unfold plannedSize planned
  by_cases hless : sub (num (getDatastorageSize env d)) (num t) < 64
  · rw [if_pos hless, if_pos (hzero.mpr hless)]
    exact ⟨_, hds.word.padded, hds.numeric, rfl⟩
  · rw [if_neg hless, if_neg (mt hzero.mp hless)]
    exact ⟨t, hpad, h, rfl⟩

/-- Whether the plan shrinks, and to what. -/
theorem plan_shrink (hpad : Padded newsize t) (h : looksNumeric t = true)
    (hds : IsNumber (getDatastorageSize env d)) (hsize : IsNumber (getDataSize env d)) :
    ((plan env newsize d).isShrinking ↔ planned env (num t) d < num (getDataSize env d)) ∧
    (plan env newsize d).shrinkto = print (sub (planned env (num t) d) shrinkReserveSize) := by
  obtain ⟨u, hu, hnumeric, hnum⟩ := plannedSize_padded hpad h hds
  have hsame : (if storageNewsize newsize (getDatastorageSize env d) = ['0']
      then getDatastorageSize env d else newsize) = plannedSize env newsize d := rfl
  unfold plan
  simp only [hsame, exits_pair hu hsize.word, prints_pair hu (word_natText _), field_one, field_two,
    lt_of_numeric hnumeric hsize.numeric, decide_eq_true_iff,
    num_natText (show 8 ≤ 2 ^ 53 by decide), shrinkReserveSize, hnum, and_self]

/-- Less is not planned than what is asked for. -/
theorem le_planned {x : ℚ} (h : x ≤ num (getDatastorageSize env d)) : x ≤ planned env x d := by
  unfold planned
  split
  · exact h
  · exact le_rfl

theorem PlainSize.suits {k : ℕ} (h : PlainSize env newsize t d f) (hfs : d.fs = some f)
    (hk : k ≤ 20) (hblock : f.blocksize = 2 ^ k) (hds : IsNumber (getDatastorageSize env d))
    (hsize : IsNumber (getDataSize env d)) : ChecksSound env newsize d f := by
  intro hsmall hlarge
  rw [tooSmall_eq h.word h.number, decide_eq_false_iff_not, not_lt] at hsmall
  rw [tooLarge_eq h.word h.number hds, decide_eq_false_iff_not, not_lt] at hlarge
  have hmin : minMiB f ≤ num t := h.minimum hsmall
  refine ⟨?_, ?_, fun hshrink => ?_⟩
  · rw [argNumber_eq h.word]
    exact (minMiB_le_iff f _).mp hmin
  · rw [argNumber_eq h.word]
    exact hlarge
  · obtain ⟨hshrinks, hto⟩ := plan_shrink h.word h.number hds hsize
    obtain ⟨u, hu, -, hnum⟩ := plannedSize_padded h.word h.number hds
    obtain ⟨hprinted, b, hb⟩ := h.blocks (hshrinks.mp hshrink)
    have hbytes := getDataBlocksize_eq hfs hblock
    refine ⟨b, ?_, ?_, ?_⟩
    · rw [hto]
      refine (shrinkBlocks_eq hbytes hk (word_print _) hprinted ?_).1
      rw [hb, hblock]
      push_cast
      rfl
    · -- as many bytes as the filesystem needs are in that many blocks
      have hneeds := (minMiB_le_iff f _).mp (hmin.trans (le_planned hlarge))
      have hpos : (0 : ℚ) < f.blocksize := by
        rw [hblock]
        exact Nat.cast_pos.mpr (Nat.two_pow_pos k)
      rw [hb] at hneeds
      exact_mod_cast le_of_mul_le_mul_right hneeds hpos
    · rw [argNumber_eq hu, hnum]
      exact hb.ge

/-! ## Whole sizes -/

/-- A whole number of MiB has whole blocks. -/
theorem wholeBlocks_of_whole {n s : ℤ} (hblock : f.blocksize ∣ MiB)
    (hds : num (getDatastorageSize env d) = s) (hn : 8 ≤ n ∧ n ≤ s) (hs : s ≤ 2 ^ 53) :
    WholeBlocks env n d f := by
  intro _
  obtain ⟨c, hc⟩ := hblock
  obtain ⟨x, hx, hlow, hhigh⟩ : ∃ x : ℤ, planned env n d = x ∧ 8 ≤ x ∧ x ≤ 2 ^ 53 := by
    unfold planned
    split
    · exact ⟨s, hds, by omega, hs⟩
    · exact ⟨n, rfl, by omega, by omega⟩
  have hreserve : (shrinkReserveSize : ℚ) = (8 : ℤ) := by norm_num [shrinkReserveSize]
  have hbits : |x - 8| ≤ 2 ^ 53 := abs_le.mpr ⟨by omega, by omega⟩
  rw [hx, hreserve, sub_intCast hbits, ← Int.cast_sub, print_intCast, num_intText hbits]
  refine ⟨rfl, (x - 8) * c, ?_⟩
  rw [hc]
  push_cast
  ring

/-- What is suitable is not below the minimum. -/
theorem plainSize_of_suits (hpad : Padded newsize t) (h : looksNumeric t = true)
    (hblocks : WholeBlocks env (num t) d f) (hsuits : Suits env newsize d f) :
    PlainSize env newsize t d f := by
  refine ⟨hpad, h, fun _ => ?_, hblocks⟩
  have henough := hsuits.enough
  rw [argNumber_eq hpad] at henough
  exact (minMiB_le_iff f _).mpr henough

/-- A whole number that passes has whole blocks. -/
theorem wholeBlocks_of_passing {n s : ℤ} (hblock : f.blocksize ∣ MiB) (hpad : Padded newsize t)
    (h : looksNumeric t = true) (hn : num t = n) (hds : IsNumber (getDatastorageSize env d))
    (hnum : num (getDatastorageSize env d) = s) (hs : s ≤ 2 ^ 53)
    (hpass : ¬ Stopped env newsize d) : WholeBlocks env (num t) d f := by
  rw [Stopped, not_or, Bool.not_eq_true, Bool.not_eq_true] at hpass
  obtain ⟨hsmall, hlarge⟩ := hpass
  rw [tooSmall_eq hpad h, decide_eq_false_iff_not, not_lt, hn] at hsmall
  rw [tooLarge_eq hpad h hds, decide_eq_false_iff_not, not_lt, hnum, hn] at hlarge
  have hseven : (7 : ℚ) < n := (seven_lt_minsize d).trans_le hsmall
  have hseven' : 7 < n := by exact_mod_cast hseven
  rw [hn]
  exact wholeBlocks_of_whole hblock hnum ⟨by omega, Int.cast_le.mp hlarge⟩ hs

/-! ## The theorem -/

/-- The checks are sound if they stop the argument or it is a plain size; and an
argument that is one number, and is whole or has whole blocks, is handled well only
then. -/
theorem range_checks_sound {k : ℕ} (hfs : d.fs = some f) (hk : 10 ≤ k ∧ k ≤ 16)
    (hblock : f.blocksize = 2 ^ k) (hds : IsNumber (getDatastorageSize env d))
    (hsize : IsNumber (getDataSize env d)) :
    ((Stopped env newsize d ∨ ∃ t, PlainSize env newsize t d f) → ChecksSound env newsize d f) ∧
    ∀ t, Padded newsize t → looksNumeric t = true →
      (WholeBlocks env (num t) d f ∨
        ∃ n s : ℤ, num t = n ∧ num (getDatastorageSize env d) = s ∧ s ≤ 2 ^ 53) →
      ChecksSound env newsize d f → Stopped env newsize d ∨ PlainSize env newsize t d f := by
  have hdvd : f.blocksize ∣ MiB := by
    rw [hblock]
    exact Nat.pow_dvd_pow 2 (by omega)
  constructor
  · intro hsafe
    rcases hsafe with (hstop | hstop) | ⟨t, hplain⟩
    · intro hsmall
      rw [hstop] at hsmall
      cases hsmall
    · intro _ hlarge
      rw [hstop] at hlarge
      cases hlarge
    · exact hplain.suits hfs (by omega) hblock hds hsize
  · intro t hpad hnumeric hwhole hsound
    by_cases hstop : Stopped env newsize d
    · exact .inl hstop
    · have hblocks : WholeBlocks env (num t) d f := by
        rcases hwhole with hblocks | ⟨n, s, hn, hs, hbits⟩
        · exact hblocks
        · exact wholeBlocks_of_passing hdvd hpad hnumeric hn hds hs hbits hstop
      rw [Stopped, not_or, Bool.not_eq_true, Bool.not_eq_true] at hstop
      exact .inr (plainSize_of_suits hpad hnumeric hblocks (hsound hstop.1 hstop.2))

/-! ## A disk -/

/-- A filesystem that needs 256001 blocks, which is one more than 1000 MiB. -/
def tightFs : Fs := { blocks := 512000, blocksize := 4096, minblocks := 256001 }

def tightDisk : Disk where
  size := 4096 * MiB
  addressed := by decide
  usable := 4096 * MiB - 16896
  parts := sampleBase ++ [(27, ⟨200 * MiB, 2200 * MiB⟩)]
  fs := some tightFs
  storageFiles := false
  made := none

theorem tightDisk_sizes : getDatastorageSize sampleEnv tightDisk = intText 3896 ∧
    getDataSize sampleEnv tightDisk = intText 2000 := by
  constructor <;> decide +kernel

theorem padded_blank : Padded "1009 ".toList (intText 1009) where
  word := word_intText 1009
  blanks := ⟨[], [' '], by decide +kernel, List.forall_mem_singleton.mpr rfl⟩
  oneLine := by simp

/-- One MiB more than the reserve and those, with a blank after it. -/
theorem range_checks_sound_enough : ChecksSound sampleEnv "1009 ".toList tightDisk tightFs := by
  obtain ⟨hds, hsize⟩ := tightDisk_sizes
  have hall := @range_checks_sound sampleEnv tightDisk tightFs "1009 ".toList 12 rfl (by decide) rfl
    (by rw [hds]; exact isNumber_intText _) (by rw [hsize]; exact isNumber_intText _)
  have hnum : num (intText 1009) = ((1009 : ℤ) : ℚ) := num_intText (by decide)
  refine hall.1 (.inr ⟨_, padded_blank, looksNumeric_intText _, fun _ => ?_, ?_⟩)
  · rw [minMiB_le_iff, hnum]
    norm_num [tightFs, MiB, shrinkReserveSize]
  · rw [hnum]
    exact wholeBlocks_of_whole (s := 3896) (by decide) (by rw [hds]; exact num_intText (by decide))
      (by decide) (by decide)

/-- The minimum is printed as 1008 without its fraction, and 1008 is accepted; and
so is `2x`, which is compared as a text. -/
theorem rounded_minimum_accepted :
    tooSmall (intText 1008) (getDataMinsize tightDisk) = false ∧
      tooLarge (intText 1008) (getDatastorageSize sampleEnv tightDisk) = false ∧
      shrinkBlocks (plan sampleEnv (intText 1008) tightDisk).shrinkto tightDisk = intText 256000 ∧
      ¬ ChecksSound sampleEnv (intText 1008) tightDisk tightFs ∧
      tooSmall ['2', 'x'] (getDataMinsize tightDisk) = false ∧
      tooLarge ['2', 'x'] (getDatastorageSize sampleEnv tightDisk) = false ∧
      argNumber ['2', 'x'] = 2 := by
  have hsmall : tooSmall (intText 1008) (getDataMinsize tightDisk) = false := by decide +kernel
  have hlarge : tooLarge (intText 1008) (getDatastorageSize sampleEnv tightDisk) = false := by
    decide +kernel
  have hblocks : shrinkBlocks (plan sampleEnv (intText 1008) tightDisk).shrinkto tightDisk =
      intText 256000 := by decide +kernel
  have hunsound : ¬ ChecksSound sampleEnv (intText 1008) tightDisk tightFs := by
    intro hsound
    have henough := (hsound hsmall hlarge).enough
    rw [argNumber_eq (word_intText _).padded, num_intText (by decide)] at henough
    norm_num [tightFs, MiB, shrinkReserveSize] at henough
  have htext : tooSmall ['2', 'x'] (getDataMinsize tightDisk) = false := by decide +kernel
  have htext' : tooLarge ['2', 'x'] (getDatastorageSize sampleEnv tightDisk) = false := by
    decide +kernel
  exact ⟨hsmall, hlarge, hblocks, hunsound, htext, htext', by decide +kernel⟩

end Pisces.Repartition
