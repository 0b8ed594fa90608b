import Pisces.Lib.Awk
import Mathlib.Tactic.Linarith
import Mathlib.Tactic.NormNum
import Mathlib.Tactic.Positivity

/-!
# What awk prints is read back

A number that is not whole is printed with six digits, with or without a point
and an exponent. Whatever the form, the text looks like a number and is read as
the number rounded to these digits, and to a double, so it is off by less than one part in
100000. The reading goes through the parts of the text as `scan` cuts them.
-/

namespace Pisces.Lib.Awk

variable {s t w f : Text} {q : ℚ}

/-! ## Texts of digits -/

def Digits (s : Text) : Prop := ∀ c ∈ s, c.isDigit = true

/-- What cannot go on a text of digits. -/
def NoDigit (s : Text) : Prop := ∀ c ∈ s.head?, c.isDigit = false

theorem noDigit_nil : NoDigit [] := fun c hc => absurd hc (Option.not_mem_none c)

theorem takeWhile_digits (hs : Digits s) (ht : NoDigit t) :
    (s ++ t).takeWhile Char.isDigit = s ∧ (s ++ t).dropWhile Char.isDigit = t := by
  induction s with
  | nil =>
      cases t with
      | nil => exact ⟨rfl, rfl⟩
      | cons c t =>
          have hc : c.isDigit = false := ht c rfl
          rw [List.nil_append, List.takeWhile_cons, List.dropWhile_cons, hc]
          exact ⟨rfl, rfl⟩
  | cons c s ih =>
      obtain ⟨htake, hdrop⟩ := ih fun x hx => hs x (List.mem_cons_of_mem c hx)
      have hc : c.isDigit = true := hs c List.mem_cons_self
      rw [List.cons_append, List.takeWhile_cons, List.dropWhile_cons, hc]
      simp only [if_true]
      exact ⟨by rw [htake], hdrop⟩

theorem digitsValue_append (s t : Text) :
    digitsValue (s ++ t) = 10 ^ t.length * digitsValue s + digitsValue t := by
  rw [digitsValue, Nat.ofDigitChars_append, Nat.ofDigitChars_eq_ofDigitChars_zero]
  rfl

theorem digitsValue_zeros (n : ℕ) : digitsValue (List.replicate n '0') = 0 := by
  rw [digitsValue, Nat.ofDigitChars_replicate_zero, Nat.mul_zero]

theorem digitsValue_natText (n : ℕ) : digitsValue (natText n) = n := by
  rw [digitsValue, natText, Nat.ofDigitChars_ten_toDigits]

theorem digits_natText (n : ℕ) : Digits (natText n) := fun _ hc => natText_isDigit hc

/-! ## The mantissa -/

theorem mantissa_whole (hw : Digits w) (hne : w ≠ []) (ht : NoDigit t)
    (hpoint : t.head? ≠ some '.') : mantissa (w ++ t) = some ((digitsValue w : ℚ), t) := by
  obtain ⟨htake, hdrop⟩ := takeWhile_digits hw ht
  rw [mantissa, htake, hdrop]
  dsimp only
  split
  · next s' => exact absurd rfl hpoint
  · rw [if_neg hne]

theorem mantissa_point (hw : Digits w) (hne : w ≠ []) (hf : Digits f) (ht : NoDigit t) :
    mantissa (w ++ '.' :: (f ++ t)) = some ((digitsValue (w ++ f) : ℚ) / 10 ^ f.length, t) := by
  have hpoint : NoDigit ('.' :: (f ++ t)) := by
    intro _ hc
    cases hc
    decide
  obtain ⟨htake, hdrop⟩ := takeWhile_digits hw hpoint
  obtain ⟨htake', hdrop'⟩ := takeWhile_digits hf ht
  rw [mantissa, htake, hdrop]
  simp only [htake', hdrop', hne, false_and, if_false]

/-- The zeros that are left out make no difference. -/
theorem mantissa_trimFraction (hw : Digits w) (hne : w ≠ []) (hf : Digits f) (ht : NoDigit t)
    (hpoint : t.head? ≠ some '.') :
    mantissa (trimFraction w f ++ t) = some ((digitsValue (w ++ f) : ℚ) / 10 ^ f.length, t) := by
  obtain ⟨n, hn⟩ : ∃ n, f.reverse.takeWhile (· == '0') = List.replicate n '0' := by
    refine ⟨_, List.eq_replicate_iff.mpr ⟨rfl, fun c hc => ?_⟩⟩
    have hzero : (c == '0') = true := List.mem_takeWhile_imp (p := (· == '0')) hc
    exact eq_of_beq hzero
  have hsplit : f = (f.reverse.dropWhile (· == '0')).reverse ++ List.replicate n '0' := by
    rw [← List.reverse_replicate, ← hn, ← List.reverse_append, List.takeWhile_append_dropWhile,
      List.reverse_reverse]
  rw [trimFraction]
  generalize (f.reverse.dropWhile (· == '0')).reverse = f' at hsplit
  subst hsplit
  have hvalue : (digitsValue (w ++ (f' ++ List.replicate n '0')) : ℚ) /
      10 ^ (f' ++ List.replicate n '0').length = digitsValue (w ++ f') / 10 ^ f'.length := by
    rw [← List.append_assoc, digitsValue_append (w ++ f'), digitsValue_zeros, List.length_append,
      List.length_replicate, Nat.add_zero, Nat.cast_mul, Nat.cast_pow, Nat.cast_ofNat, pow_add,
      mul_comm]
    exact mul_div_mul_right _ _ (pow_ne_zero n (by norm_num))
  rw [hvalue]
  cases f' with
  | nil =>
      rw [List.append_nil, List.length_nil, pow_zero, div_one]
      exact mantissa_whole hw hne ht hpoint
  | cons c f' =>
      have hf' : Digits (c :: f') := fun x hx => hf x (List.mem_append_left _ hx)
      have happend : w ++ '.' :: (c :: f') ++ t = w ++ '.' :: ((c :: f') ++ t) := by
        rw [List.append_assoc, List.cons_append]
      show mantissa (w ++ '.' :: (c :: f') ++ t) = _
      rw [happend]
      exact mantissa_point hw hne hf' ht

/-! ## The whole text -/

/-- A text that starts with a digit and is read to its end, as `q`. -/
structure Reads (t : Text) (q : ℚ) : Prop where
  head : ∃ c s, t = c :: s ∧ c.isDigit = true
  value : ∃ m r, mantissa t = some (m, r) ∧ m * 10 ^ (exponent r).1 = q ∧ (exponent r).2 = []

theorem Reads.scan (h : Reads t q) : scan t = some (q, []) := by
  obtain ⟨⟨c, s, rfl, hc⟩, m, r, hm, hq, hr⟩ := h
  rw [Awk.scan, dropBlanks_of_head (by rintro _ ⟨⟩; exact isBlank_of_isDigit hc),
    sign_of_isDigit hc]
  simp only [hm, hr, Int.cast_one, one_mul, hq]

theorem Reads.scan_neg (h : Reads t q) : Awk.scan ('-' :: t) = some (-q, []) := by
  obtain ⟨-, m, r, hm, hq, hr⟩ := h
  rw [Awk.scan, dropBlanks_of_head (by rintro _ ⟨⟩; decide)]
  simp only [sign, hm, hr, Int.cast_neg, Int.cast_one, neg_mul, one_mul, hq]

theorem trimFraction_head (hw : Digits w) (hne : w ≠ []) :
    ∃ c s, trimFraction w f ++ t = c :: s ∧ c.isDigit = true := by
  obtain ⟨c, w', rfl⟩ := List.exists_cons_of_ne_nil hne
  have hc : c.isDigit = true := hw c List.mem_cons_self
  unfold trimFraction
  split
  · exact ⟨c, _, rfl, hc⟩
  · exact ⟨c, _, rfl, hc⟩

/-- Without an exponent. -/
theorem reads_trimFraction (hw : Digits w) (hne : w ≠ []) (hf : Digits f) :
    Reads (trimFraction w f) (digitsValue (w ++ f) / 10 ^ f.length) := by
  have hmantissa := mantissa_trimFraction hw hne hf noDigit_nil (Option.some_ne_none _).symm
  have hhead := @trimFraction_head [] w f hw hne
  rw [List.append_nil] at hmantissa hhead
  exact ⟨hhead, _, _, hmantissa, by rw [exponent, zpow_zero, mul_one], rfl⟩

/-! ## Six digits -/

/-- The digits of a number with six of them, cut anywhere. -/
theorem digits_take (m k : ℕ) : Digits ((natText m).take k) :=
  fun _ hc => digits_natText m _ (List.mem_of_mem_take hc)

theorem digits_drop (m k : ℕ) : Digits ((natText m).drop k) :=
  fun _ hc => digits_natText m _ (List.mem_of_mem_drop hc)

/-- The digits with zeros before them. -/
theorem digits_zeros_natText (k m : ℕ) : Digits (List.replicate k '0' ++ natText m) := by
  intro c hc
  rcases List.mem_append.mp hc with hc | hc
  · rw [List.eq_of_mem_replicate hc]
    decide
  · exact natText_isDigit hc

theorem digitsValue_zeros_natText (k m : ℕ) :
    digitsValue (['0'] ++ (List.replicate k '0' ++ natText m)) = m := by
  have hzero : digitsValue ['0'] = 0 := rfl
  rw [digitsValue_append, digitsValue_append, digitsValue_zeros, hzero, Nat.mul_zero,
    Nat.mul_zero, Nat.zero_add, Nat.zero_add, digitsValue_natText]

theorem length_natText {m : ℕ} (h : 10 ^ 5 ≤ m ∧ m < 10 ^ 6) : (natText m).length = 6 := by
  have hle : (natText m).length ≤ 6 := (Nat.length_toDigits_le_iff (by decide) (by decide)).mpr h.2
  have hgt : ¬ (natText m).length ≤ 5 := by
    rw [natText, Nat.length_toDigits_le_iff (by decide) (by decide)]
    omega
  omega

theorem mul_zpow_sub_five (m : ℚ) {e : ℤ} {n : ℕ} (h : (n : ℤ) = 5 - e) :
    m / 10 ^ n = m * 10 ^ (e - 5) := by
  have hneg : e - 5 = -(n : ℤ) := by omega
  rw [hneg, zpow_neg, zpow_natCast, div_eq_mul_inv]

/-- The digits of an exponent, of which there are two at least. -/
def exponentDigits (e : ℤ) : Text :=
  if (natText e.natAbs).length < 2 then '0' :: natText e.natAbs else natText e.natAbs

theorem exponentDigits_spec (e : ℤ) : Digits (exponentDigits e) ∧ exponentDigits e ≠ [] ∧
    digitsValue (exponentDigits e) = e.natAbs := by
  unfold exponentDigits
  split
  · refine ⟨fun c hc => ?_, List.cons_ne_nil _ _, ?_⟩
    · rcases List.mem_cons.mp hc with rfl | hc
      · decide
      · exact natText_isDigit hc
    · have hzero : digitsValue ['0'] = 0 := rfl
      rw [← List.singleton_append, digitsValue_append, hzero, Nat.mul_zero, Nat.zero_add,
        digitsValue_natText]
  · exact ⟨digits_natText _, natText_ne_nil _, digitsValue_natText _⟩

theorem exponent_shown (e : ℤ) :
    exponent ('e' :: (if e < 0 then '-' else '+') :: exponentDigits e) = (e, []) := by
  obtain ⟨hdigits, hne, hvalue⟩ := exponentDigits_spec e
  obtain ⟨htake, hdrop⟩ := takeWhile_digits hdigits noDigit_nil
  rw [List.append_nil] at htake hdrop
  have hsign : sign ((if e < 0 then '-' else '+') :: exponentDigits e) =
      (if e < 0 then -1 else 1, exponentDigits e) := by
    split <;> rfl
  rw [exponent]
  simp only [hsign, htake, hdrop, hvalue, hne, true_or, ne_eq, not_false_eq_true, and_self, if_true]
  split <;> simp only [Prod.mk.injEq, and_true] <;> omega

theorem shownDigits_reads {m : ℕ} {e : ℤ} (h : 10 ^ 5 ≤ m ∧ m < 10 ^ 6) :
    Reads (shownDigits m e) (m * 10 ^ (e - 5)) := by
  have hlen := length_natText h
  have hne : ∀ k, (natText m).take (k + 1) ≠ [] := by
    intro k hnil
    have hk := congrArg List.length hnil
    rw [List.length_take, hlen, List.length_nil] at hk
    omega
  unfold shownDigits
  simp only
  split
  · next he =>
      -- the point is among the digits or after them
      have hreads := reads_trimFraction (digits_take m (e.toNat + 1)) (hne e.toNat)
        (digits_drop m (e.toNat + 1))
      rw [List.take_append_drop, digitsValue_natText, List.length_drop, hlen,
        mul_zpow_sub_five m (e := e) (by omega)] at hreads
      exact hreads
  · split
    · next he =>
        -- zeros before the digits
        have hzero : Digits ['0'] := by
          intro c hc
          rw [List.mem_singleton.mp hc]
          decide
        have hreads := reads_trimFraction hzero (List.cons_ne_nil _ _)
          (digits_zeros_natText (-e - 1).toNat m)
        rw [digitsValue_zeros_natText, List.length_append, List.length_replicate, hlen,
          mul_zpow_sub_five m (e := e) (by omega)] at hreads
        exact hreads
    · -- an exponent
      have hend : NoDigit ('e' :: (if e < 0 then '-' else '+') :: exponentDigits e) := by
        intro _ hc
        cases hc
        decide
      have hmantissa := mantissa_trimFraction (digits_take m 1) (hne 0) (digits_drop m 1) hend
        fun h => absurd (Option.some.inj h) (by decide)
      rw [List.take_append_drop, digitsValue_natText, List.length_drop, hlen] at hmantissa
      rw [List.append_assoc]
      refine ⟨trimFraction_head (digits_take m 1) (hne 0), _, _, hmantissa, ?_, ?_⟩
      · rw [exponent_shown, zpow_sub₀ (by norm_num)]
        ring
      · rw [exponent_shown]

/-! ## Printing -/

theorem ne_zero_of_den (h : q.den ≠ 1) : q ≠ 0 := by
  rintro rfl
  exact h rfl

/-- The size of a number, rounded to six digits. -/
def sixRound (q : ℚ) : ℚ :=
  roundEven (|q| * 10 ^ (5 - Int.log 10 |q|)) * 10 ^ (Int.log 10 |q| - 5)

/-- The number that a printed number is the text of. -/
def printed (q : ℚ) : ℚ := if q.den = 1 then q else if q < 0 then -sixRound q else sixRound q

/-- With the point after the first six digits, a number is from 100000 on. -/
theorem scaled_bounds (hq : q ≠ 0) :
    (10 ^ 5 : ℚ) ≤ |q| * 10 ^ (5 - Int.log 10 |q|) ∧ |q| * 10 ^ (5 - Int.log 10 |q|) < 10 ^ 6 := by
  have hpos : 0 < |q| := abs_pos.mpr hq
  have hlow : (10 : ℚ) ^ Int.log 10 |q| ≤ |q| := by
    exact_mod_cast Int.zpow_log_le_self (b := 10) (by decide) hpos
  have hhigh : |q| < (10 : ℚ) ^ (Int.log 10 |q| + 1) := by
    exact_mod_cast Int.lt_zpow_succ_log_self (b := 10) (by decide) |q|
  have hten : (10 : ℚ) ≠ 0 := by norm_num
  have hscale : (0 : ℚ) < 10 ^ (5 - Int.log 10 |q|) := zpow_pos (by norm_num) _
  constructor
  · calc (10 ^ 5 : ℚ) = 10 ^ Int.log 10 |q| * 10 ^ (5 - Int.log 10 |q|) := by
          rw [← zpow_add₀ hten, add_sub_cancel]
          norm_num
      _ ≤ |q| * 10 ^ (5 - Int.log 10 |q|) := mul_le_mul_of_nonneg_right hlow hscale.le
  · calc |q| * 10 ^ (5 - Int.log 10 |q|)
        < 10 ^ (Int.log 10 |q| + 1) * 10 ^ (5 - Int.log 10 |q|) :=
          mul_lt_mul_of_pos_right hhigh hscale
      _ = 10 ^ 6 := by
          rw [← zpow_add₀ hten, show Int.log 10 |q| + 1 + (5 - Int.log 10 |q|) = 6 by ring]
          norm_num

theorem roundEven_bounds {x : ℚ} (h : (10 ^ 5 : ℚ) ≤ x ∧ x < 10 ^ 6) :
    10 ^ 5 ≤ roundEven x ∧ roundEven x ≤ 10 ^ 6 := by
  obtain ⟨hlow, hhigh⟩ := abs_le.mp (roundEven_close x)
  have hlow' : (10 ^ 5 - 1 : ℤ) < roundEven x := by
    have hcast : (10 ^ 5 - 1 : ℚ) < roundEven x := by linarith
    exact_mod_cast hcast
  have hhigh' : roundEven x < (10 ^ 6 + 1 : ℤ) := by
    have hcast : (roundEven x : ℚ) < 10 ^ 6 + 1 := by linarith
    exact_mod_cast hcast
  omega

theorem sixDigits_reads (hq : q ≠ 0) :
    ∃ body, Reads body (sixRound q) ∧ sixDigits q = if q < 0 then '-' :: body else body := by
  obtain ⟨hlow, hhigh⟩ := roundEven_bounds (scaled_bounds hq)
  rw [sixDigits, sixRound]
  generalize roundEven (|q| * 10 ^ (5 - Int.log 10 |q|)) = r at hlow hhigh
  lift r to ℕ using by omega
  simp only [Int.toNat_natCast, Int.cast_natCast]
  refine ⟨_, ?_, rfl⟩
  split
  · next hfull =>
      -- rounding up to a million leaves one more digit before the point
      have hreads := @shownDigits_reads (10 ^ 5) (Int.log 10 |q| + 1) (by decide)
      have hvalue : ((10 ^ 5 : ℕ) : ℚ) * 10 ^ (Int.log 10 |q| + 1 - 5) =
          (r : ℚ) * 10 ^ (Int.log 10 |q| - 5) := by
        rw [hfull, add_sub_right_comm, zpow_add_one₀ (by norm_num)]
        push_cast
        ring
      rw [← hvalue]
      exact hreads
  · next hless =>
      exact shownDigits_reads ⟨by omega, by omega⟩

theorem scan_print (q : ℚ) : scan (print q) = some (printed q, []) := by
  unfold print printed
  split
  · next hden =>
      rw [scan_intText, Rat.coe_int_num_of_den_eq_one hden]
  · next hden =>
      have hq := ne_zero_of_den hden
      obtain ⟨body, hbody, htext⟩ := sixDigits_reads hq
      rw [htext]
      split
      · exact hbody.scan_neg
      · exact hbody.scan

theorem num_print (q : ℚ) : num (print q) = double (printed q) := by
  rw [num, scan_print]

@[simp] theorem looksNumeric_print (q : ℚ) : looksNumeric (print q) = true := by
  rw [looksNumeric, scan_print]
  rfl

@[simp] theorem printed_intCast (z : ℤ) : printed (z : ℚ) = z := by
  rw [printed, if_pos (Rat.den_intCast z)]

theorem sixRound_close (hq : q ≠ 0) : abs (sixRound q - |q|) ≤ |q| / 200000 := by
  obtain ⟨hlow, -⟩ := scaled_bounds hq
  have hten : (10 : ℚ) ≠ 0 := by norm_num
  have hscale : (0 : ℚ) < 10 ^ (Int.log 10 |q| - 5) := zpow_pos (by norm_num) _
  have hback : |q| * 10 ^ (5 - Int.log 10 |q|) * 10 ^ (Int.log 10 |q| - 5) = |q| := by
    rw [mul_assoc, ← zpow_add₀ hten, show 5 - Int.log 10 |q| + (Int.log 10 |q| - 5) = 0 by ring,
      zpow_zero, mul_one]
  have hround := roundEven_close (|q| * 10 ^ (5 - Int.log 10 |q|))
  rw [sixRound]
  generalize |q| * 10 ^ (5 - Int.log 10 |q|) = x at *
  calc abs ((roundEven x : ℚ) * 10 ^ (Int.log 10 |q| - 5) - |q|)
      = |(roundEven x : ℚ) - x| * 10 ^ (Int.log 10 |q| - 5) := by
        rw [← abs_of_pos hscale, ← abs_mul, sub_mul, abs_of_pos hscale, hback]
    _ ≤ x / 200000 * 10 ^ (Int.log 10 |q| - 5) := by
        refine mul_le_mul_of_nonneg_right ?_ hscale.le
        linarith
    _ = |q| / 200000 := by rw [div_mul_eq_mul_div, hback]

/-- A number that is printed and read again is off by less than a part in
200000. -/
theorem printed_close (q : ℚ) : |printed q - q| ≤ |q| / 200000 := by
  unfold printed
  split
  · rw [sub_self, abs_zero]
    positivity
  · next hden =>
      have hq := ne_zero_of_den hden
      have hclose := sixRound_close hq
      split
      · next hneg =>
          rw [abs_of_neg hneg] at hclose ⊢
          rwa [← abs_neg, neg_sub, sub_neg_eq_add, add_comm, ← sub_neg_eq_add]
      · next hpos =>
          rw [abs_of_nonneg (not_lt.mp hpos)] at hclose ⊢
          exact hclose

/-- And with the rounding to a double it is off by a part in 100000 at most. -/
theorem num_print_close (q : ℚ) : |num (print q) - q| ≤ |q| / 100000 := by
  rw [num_print]
  have hprinted := printed_close q
  have hdouble := double_close (printed q)
  have hsize : |printed q| ≤ 2 * |q| := by
    calc |printed q| = |(printed q - q) + q| := by rw [sub_add_cancel]
      _ ≤ |printed q - q| + |q| := abs_add_le _ _
      _ ≤ 2 * |q| := by linarith [abs_nonneg q]
  calc |double (printed q) - q| = |(double (printed q) - printed q) + (printed q - q)| := by
        rw [sub_add_sub_cancel]
    _ ≤ |double (printed q) - printed q| + |printed q - q| := abs_add_le _ _
    _ ≤ |q| / 100000 := by linarith [abs_nonneg q]

-- 1008.105 is a little more as a double, so the sixth digit is rounded up.
example : print (sub (num "1008.105".toList) 8) = "1000.11".toList := by decide +kernel

/-! ## Printed numbers are words -/

def NoBlank (s : Text) : Prop := ∀ c ∈ s, isBlank c = false

theorem Digits.noBlank (h : Digits s) : NoBlank s := fun c hc => isBlank_of_isDigit (h c hc)

theorem NoBlank.cons {c : Char} (hc : isBlank c = false) (h : NoBlank s) : NoBlank (c :: s) := by
  intro x hx
  rcases List.mem_cons.mp hx with rfl | hx
  · exact hc
  · exact h x hx

theorem NoBlank.append (hs : NoBlank s) (ht : NoBlank t) : NoBlank (s ++ t) := by
  intro c hc
  rcases List.mem_append.mp hc with hc | hc
  · exact hs c hc
  · exact ht c hc

theorem noBlank_trimFraction (hw : NoBlank w) (hf : NoBlank f) : NoBlank (trimFraction w f) := by
  have htrim : NoBlank (f.reverse.dropWhile (· == '0')).reverse := by
    intro c hc
    rw [List.mem_reverse] at hc
    exact hf c (List.mem_reverse.mp ((List.dropWhile_sublist _).mem hc))
  unfold trimFraction
  split
  · exact hw
  · exact hw.append (htrim.cons (by decide))

theorem noBlank_shownDigits (m : ℕ) (e : ℤ) : NoBlank (shownDigits m e) := by
  unfold shownDigits
  simp only
  split
  · exact noBlank_trimFraction (digits_take m _).noBlank (digits_drop m _).noBlank
  · split
    · refine noBlank_trimFraction (.cons (by decide) fun c hc => absurd hc List.not_mem_nil) ?_
      exact (digits_zeros_natText _ m).noBlank
    · have hsign : isBlank (if e < 0 then '-' else '+') = false := by
        split <;> decide
      rw [List.append_assoc]
      refine (noBlank_trimFraction (digits_take m 1).noBlank (digits_drop m 1).noBlank).append ?_
      exact .cons (by decide) (.cons hsign (exponentDigits_spec e).1.noBlank)

theorem word_print (q : ℚ) : Word (print q) := by
  unfold print
  split
  · exact word_intText _
  · next hden =>
      have hq := ne_zero_of_den hden
      have hnonempty : sixDigits q ≠ [] := by
        obtain ⟨body, hbody, htext⟩ := sixDigits_reads hq
        obtain ⟨c, s, rfl, -⟩ := hbody.head
        rw [htext]
        split <;> exact List.cons_ne_nil _ _
      refine ⟨hnonempty, ?_⟩
      unfold sixDigits
      simp only
      have hbody : NoBlank (if (roundEven (|q| * 10 ^ (5 - Int.log 10 |q|))).toNat = 10 ^ 6
          then shownDigits (10 ^ 5) (Int.log 10 |q| + 1)
          else shownDigits (roundEven (|q| * 10 ^ (5 - Int.log 10 |q|))).toNat
            (Int.log 10 |q|)) := by
        split <;> exact noBlank_shownDigits _ _
      split
      · exact hbody.cons (by decide)
      · exact hbody

end Pisces.Lib.Awk
