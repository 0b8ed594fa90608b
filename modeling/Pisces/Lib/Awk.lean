import Mathlib.Data.List.TakeWhile
import Pisces.Lib.Double

/-!
# Numbers in awk

An awk program gets texts and gives texts. A field is compared as a number only
if all of it looks like one, and arithmetic uses the number at its front; a
number is printed in full when it is whole and with six digits otherwise. The
numbers are doubles: what is read is rounded to one, and so is every sum and
product. Here is that reading and that printing, and the one fact that makes a
chain of awk programs on whole numbers ordinary arithmetic: the text of an
integer of 53 bits is read back as that integer.
-/

namespace Pisces.Lib.Awk

abbrev Text := List Char

def isBlank (c : Char) : Bool := c == ' ' || c == '\t' || c == '\n'

/-! ## Reading -/

def sign : Text → ℤ × Text
  | '-' :: s => (-1, s)
  | '+' :: s => (1, s)
  | s => (1, s)

def digitsValue (ds : Text) : ℕ := Nat.ofDigitChars 10 ds 0

/-- Digits with at most one point among them. -/
def mantissa (s : Text) : Option (ℚ × Text) :=
  let whole := s.takeWhile Char.isDigit
  match s.dropWhile Char.isDigit with
  | '.' :: s' =>
      let frac := s'.takeWhile Char.isDigit
      if whole = [] ∧ frac = [] then none
      else some (digitsValue (whole ++ frac) / 10 ^ frac.length, s'.dropWhile Char.isDigit)
  | s' => if whole = [] then none else some (digitsValue whole, s')

/-- An e without digits after it is not an exponent. -/
def exponent : Text → ℤ × Text
  | [] => (0, [])
  | c :: s =>
      let e := sign s
      let ds := e.2.takeWhile Char.isDigit
      if (c = 'e' ∨ c = 'E') ∧ ds ≠ [] then (e.1 * digitsValue ds, e.2.dropWhile Char.isDigit)
      else (0, c :: s)

/-- The number at the front of a text, and what follows it. -/
def scan (s : Text) : Option (ℚ × Text) :=
  let sg := sign (s.dropWhile isBlank)
  match mantissa sg.2 with
  | none => none
  | some (m, s') =>
      let e := exponent s'
      some (sg.1 * m * 10 ^ e.1, e.2)

def num (s : Text) : ℚ :=
  match scan s with
  | none => 0
  | some (q, _) => double q

def looksNumeric (s : Text) : Bool :=
  match scan s with
  | none => false
  | some (_, rest) => rest.all isBlank

/-- `$1 < $2` -/
def lt (a b : Text) : Bool :=
  if looksNumeric a && looksNumeric b then decide (num a < num b) else decide (a < b)

/-- A field as a condition. -/
def isTrue (a : Text) : Bool := if looksNumeric a then decide (num a ≠ 0) else decide (a ≠ [])

/-! ## Arithmetic -/

def add (x y : ℚ) : ℚ := double (x + y)
def sub (x y : ℚ) : ℚ := double (x - y)
def mul (x y : ℚ) : ℚ := double (x * y)
def div (x y : ℚ) : ℚ := double (x / y)

/-! ## Printing -/

def natText (n : ℕ) : Text := Nat.toDigits 10 n

def intText (z : ℤ) : Text := if z < 0 then '-' :: natText z.natAbs else natText z.natAbs

/-- Without the zeros at the end of the fraction, and without a bare point. -/
def trimFraction (whole frac : Text) : Text :=
  match (frac.reverse.dropWhile (· == '0')).reverse with
  | [] => whole
  | frac' => whole ++ '.' :: frac'

/-- The digits of `m`, of which there are six, as `%g` shows `m * 10 ^ (e - 5)`. -/
def shownDigits (m : ℕ) (e : ℤ) : Text :=
  let ds := natText m
  if 0 ≤ e ∧ e < 6 then trimFraction (ds.take (e.toNat + 1)) (ds.drop (e.toNat + 1))
  else if -4 ≤ e ∧ e < 0 then
    trimFraction ['0'] (List.replicate (-e - 1).toNat '0' ++ ds)
  else
    let ex := natText e.natAbs
    trimFraction (ds.take 1) (ds.drop 1) ++ ['e', if e < 0 then '-' else '+'] ++
      (if ex.length < 2 then '0' :: ex else ex)

/-- `%.6g` of a number other than zero. -/
def sixDigits (q : ℚ) : Text :=
  let e := Int.log 10 |q|
  let m := (roundEven (|q| * 10 ^ (5 - e))).toNat
  let body := if m = 10 ^ 6 then shownDigits (10 ^ 5) (e + 1) else shownDigits m e
  if q < 0 then '-' :: body else body

/-- `print` of a number. -/
def print (q : ℚ) : Text := if q.den = 1 then intText q.num else sixDigits q

/-! ## Records and fields -/

/-- What `echo` gives for several arguments. -/
def echo (args : List Text) : Text := List.intercalate [' '] args

def records (s : Text) : List Text := s.splitOnP (· == '\n')

def fields (s : Text) : List Text := (s.splitOnP isBlank).filter (· ≠ [])

/-- `$k` -/
def field (fs : List Text) (k : ℕ) : Text := fs.getD (k - 1) []

/-- `awk '{ exit cond ? 0 : 1; }'`: the first record decides. -/
def exits (cond : List Text → Bool) (s : Text) : Bool := cond (fields ((records s).headD []))

/-- `$(awk '{ print expr; }')` -/
def prints (expr : List Text → ℚ) (s : Text) : Text :=
  List.intercalate ['\n'] ((records s).map fun r => print (expr (fields r)))

@[simp] theorem field_one (a : Text) (fs : List Text) : field (a :: fs) 1 = a := rfl

@[simp] theorem field_two (a b : Text) (fs : List Text) : field (a :: b :: fs) 2 = b := rfl

/-! ## Integers survive -/

theorem natText_isDigit {n : ℕ} {c : Char} (h : c ∈ natText n) : c.isDigit = true :=
  Nat.isDigit_of_mem_toDigits (by decide) (by decide) h

theorem natText_ne_nil (n : ℕ) : natText n ≠ [] := Nat.toDigits_ne_nil

theorem intText_natCast (n : ℕ) : intText n = natText n := by
  rw [intText, if_neg (not_lt.mpr (Int.natCast_nonneg n)), Int.natAbs_natCast]

theorem mantissa_natText (n : ℕ) : mantissa (natText n) = some ((n : ℚ), []) := by
  have htake : (natText n).takeWhile Char.isDigit = natText n :=
    List.takeWhile_eq_self_iff.mpr fun c hc => natText_isDigit hc
  have hdrop : (natText n).dropWhile Char.isDigit = [] :=
    List.dropWhile_eq_nil_iff.mpr fun c hc => natText_isDigit hc
  rw [mantissa, hdrop, htake]
  simp only [if_neg (natText_ne_nil n)]
  rw [digitsValue, natText, Nat.ofDigitChars_ten_toDigits]

/-- A digit is no blank, no sign and no newline. -/
theorem isBlank_of_isDigit {c : Char} (h : c.isDigit = true) : isBlank c = false := by
  unfold isBlank
  rw [Bool.or_eq_false_iff, Bool.or_eq_false_iff]
  refine ⟨⟨?_, ?_⟩, ?_⟩ <;>
    · rw [beq_eq_false_iff_ne]
      rintro rfl
      exact absurd h (by decide)

theorem sign_of_isDigit {c : Char} {s : Text} (h : c.isDigit = true) :
    sign (c :: s) = (1, c :: s) := by
  unfold sign
  split
  · next heq =>
      obtain ⟨rfl, -⟩ := List.cons.inj heq
      exact absurd h (by decide)
  · next heq =>
      obtain ⟨rfl, -⟩ := List.cons.inj heq
      exact absurd h (by decide)
  · rfl

theorem sign_natText (n : ℕ) : sign (natText n) = (1, natText n) := by
  cases hs : natText n with
  | nil => rfl
  | cons c s => exact sign_of_isDigit (natText_isDigit (by rw [hs]; exact List.mem_cons_self))

theorem dropBlanks_of_head {s : Text} (h : ∀ c ∈ s.head?, isBlank c = false) :
    s.dropWhile isBlank = s := by
  cases s with
  | nil => rfl
  | cons c s => rw [List.dropWhile_cons, h c rfl]; rfl

theorem scan_intText (z : ℤ) : scan (intText z) = some ((z : ℚ), []) := by
  unfold intText
  split
  · next hneg =>
      have hz : (z : ℚ) = -(z.natAbs : ℚ) := by
        rw [Nat.cast_natAbs, abs_of_neg hneg, Int.cast_neg, neg_neg]
      rw [scan, dropBlanks_of_head (by rintro _ ⟨⟩; decide)]
      simp only [sign, mantissa_natText, exponent]
      rw [hz, zpow_zero, mul_one, Int.cast_neg, Int.cast_one, neg_one_mul]
  · next hpos =>
      have hz : (z : ℚ) = (z.natAbs : ℚ) := by
        rw [Nat.cast_natAbs, abs_of_nonneg (not_lt.mp hpos)]
      rw [scan, dropBlanks_of_head, sign_natText]
      · simp only [mantissa_natText, exponent]
        rw [hz, zpow_zero, mul_one, Int.cast_one, one_mul]
      · intro c hc
        exact isBlank_of_isDigit (natText_isDigit (List.mem_of_mem_head? hc))

theorem isDouble_num (s : Text) : IsDouble (num s) := by
  unfold num
  split
  · exact isDouble_intCast (k := 0) (by decide)
  · exact isDouble_double _

theorem num_intText_eq_double (z : ℤ) : num (intText z) = double z := by
  rw [num, scan_intText]

theorem num_intText {z : ℤ} (h : |z| ≤ 2 ^ 53) : num (intText z) = z := by
  rw [num_intText_eq_double, double_intCast h]

@[simp] theorem looksNumeric_intText (z : ℤ) : looksNumeric (intText z) = true := by
  rw [looksNumeric, scan_intText]
  rfl

theorem add_intCast {a b : ℤ} (h : |a + b| ≤ 2 ^ 53) : add a b = ((a + b : ℤ) : ℚ) := by
  rw [add, ← Int.cast_add, double_intCast h]

theorem sub_intCast {a b : ℤ} (h : |a - b| ≤ 2 ^ 53) : sub a b = ((a - b : ℤ) : ℚ) := by
  rw [sub, ← Int.cast_sub, double_intCast h]

theorem lt_of_numeric {a b : Text} (ha : looksNumeric a = true) (hb : looksNumeric b = true) :
    lt a b = decide (num a < num b) := by
  rw [lt, ha, hb]
  rfl

-- The two are one double.
example : lt "1007.9999999999999999".toList (intText 1008) = false := by decide +kernel

theorem isTrue_of_numeric {a : Text} (ha : looksNumeric a = true) :
    isTrue a = decide (num a ≠ 0) := by
  rw [isTrue, ha]
  rfl

@[simp] theorem print_intCast (z : ℤ) : print (z : ℚ) = intText z := by
  rw [print, if_pos (Rat.den_intCast z), Rat.num_intCast]

/-! ## Words -/

/-- A text that stays one field. -/
structure Word (t : Text) : Prop where
  nonempty : t ≠ []
  noBlank : ∀ c ∈ t, isBlank c = false

theorem word_intText (z : ℤ) : Word (intText z) := by
  have hnat : ∀ c ∈ natText z.natAbs, isBlank c = false :=
    fun c hc => isBlank_of_isDigit (natText_isDigit hc)
  unfold intText
  split
  · refine ⟨List.cons_ne_nil _ _, fun c hc => ?_⟩
    rcases List.mem_cons.mp hc with rfl | hc
    · decide
    · exact hnat c hc
  · exact ⟨natText_ne_nil _, hnat⟩

theorem Word.oneLine {t : Text} (h : Word t) : '\n' ∉ t := fun hc =>
  absurd (h.noBlank _ hc) (by decide)

/-- Nothing, or a blank first. -/
def BlankFirst (s : Text) : Prop := ∀ c ∈ s.head?, isBlank c = true

theorem fields_cons_blank {c : Char} {s : Text} (h : isBlank c = true) :
    fields (c :: s) = fields s := by
  rw [fields, fields, List.splitOnP_cons_eq_if_modifyHead, if_pos h]
  rfl

theorem fields_blanks_append {b s : Text} (hb : ∀ c ∈ b, isBlank c = true) :
    fields (b ++ s) = fields s := by
  induction b with
  | nil => rfl
  | cons c b ih =>
      rw [List.cons_append, fields_cons_blank (hb c List.mem_cons_self)]
      exact ih fun x hx => hb x (List.mem_cons_of_mem c hx)

theorem fields_word_append {w s : Text} (hw : Word w) (hs : BlankFirst s) :
    fields (w ++ s) = w :: fields s := by
  have hkeep : decide (w ≠ []) = true := decide_eq_true hw.nonempty
  cases s with
  | nil =>
      rw [List.append_nil, fields, List.splitOnP_eq_singleton hw.noBlank, List.filter_cons,
        if_pos hkeep]
      rfl
  | cons c s =>
      have hc : isBlank c = true := hs c rfl
      rw [fields_cons_blank hc, fields, List.splitOnP_append_cons_of_forall_mem hw.noBlank c hc,
        List.filter_cons, if_pos hkeep, fields]

/-- A text in one line, of one word and blanks around it. -/
structure Padded (t w : Text) : Prop where
  word : Word w
  blanks : ∃ before after, t = before ++ (w ++ after) ∧ ∀ c ∈ before ++ after, isBlank c = true
  oneLine : '\n' ∉ t

theorem Word.padded {w : Text} (h : Word w) : Padded w w where
  word := h
  blanks := ⟨[], [], (List.append_nil w).symm, fun _ hc => absurd hc List.not_mem_nil⟩
  oneLine := h.oneLine

/-! ## Echoed words -/

theorem echo_cons (a : Text) (ws : List Text) :
    ∃ s, echo (a :: ws) = a ++ s ∧ BlankFirst s ∧ fields s = fields (echo ws) := by
  cases ws with
  | nil =>
      refine ⟨[], ?_, fun _ hc => absurd hc (Option.not_mem_none _), rfl⟩
      rw [echo, List.intercalate_singleton, List.append_nil]
  | cons w ws =>
      refine ⟨' ' :: echo (w :: ws), ?_, ?_, fields_cons_blank rfl⟩
      · rw [echo, List.intercalate_cons_cons, List.append_assoc]
        rfl
      · rintro _ ⟨⟩
        rfl

theorem fields_echo_cons {a w : Text} (h : Padded a w) (ws : List Text) :
    fields (echo (a :: ws)) = w :: fields (echo ws) := by
  obtain ⟨s, hecho, hs, hfields⟩ := echo_cons a ws
  obtain ⟨before, after, ha, hblanks⟩ := h.blanks
  have hafter : ∀ c ∈ after, isBlank c = true := fun c hc => hblanks c (List.mem_append_right _ hc)
  have hnext : BlankFirst (after ++ s) := by
    cases after with
    | nil => exact hs
    | cons c after =>
        rintro _ ⟨⟩
        exact hafter c List.mem_cons_self
  rw [hecho, ha, List.append_assoc, List.append_assoc,
    fields_blanks_append fun c hc => hblanks c (List.mem_append_left _ hc),
    fields_word_append h.word hnext, fields_blanks_append hafter, hfields]

theorem fields_echo {ws : List Text} (h : ∀ w ∈ ws, Word w) : fields (echo ws) = ws := by
  induction ws with
  | nil => rfl
  | cons w ws ih =>
      rw [fields_echo_cons (h w List.mem_cons_self).padded,
        ih fun x hx => h x (List.mem_cons_of_mem w hx)]

theorem records_of_oneLine {s : Text} (h : '\n' ∉ s) : records s = [s] := by
  refine List.splitOnP_eq_singleton fun c hc => ?_
  rw [beq_eq_false_iff_ne]
  rintro rfl
  exact h hc

theorem oneLine_echo {ws : List Text} (h : ∀ w ∈ ws, '\n' ∉ w) : '\n' ∉ echo ws := by
  induction ws with
  | nil => exact List.not_mem_nil
  | cons w ws ih =>
      have htail := ih fun x hx => h x (List.mem_cons_of_mem w hx)
      have hhead := h w List.mem_cons_self
      cases ws with
      | nil => rwa [echo, List.intercalate_singleton]
      | cons w' ws =>
          rw [echo, List.intercalate_cons_cons, List.mem_append, List.mem_append]
          rintro ((hc | hc) | hc)
          · exact hhead hc
          · exact absurd hc (by decide)
          · exact htail hc

/-- The first of the words can have blanks around it. -/
theorem exits_echo {a w : Text} {ws : List Text} (h : Padded a w) (hws : ∀ x ∈ ws, Word x)
    (cond : List Text → Bool) : exits cond (echo (a :: ws)) = cond (w :: ws) := by
  have hline : '\n' ∉ echo (a :: ws) :=
    oneLine_echo (List.forall_mem_cons.mpr ⟨h.oneLine, fun x hx => (hws x hx).oneLine⟩)
  rw [exits, records_of_oneLine hline, List.headD_cons, fields_echo_cons h, fields_echo hws]

theorem prints_echo {a w : Text} {ws : List Text} (h : Padded a w) (hws : ∀ x ∈ ws, Word x)
    (expr : List Text → ℚ) : prints expr (echo (a :: ws)) = print (expr (w :: ws)) := by
  have hline : '\n' ∉ echo (a :: ws) :=
    oneLine_echo (List.forall_mem_cons.mpr ⟨h.oneLine, fun x hx => (hws x hx).oneLine⟩)
  rw [prints, records_of_oneLine hline, List.map_singleton, fields_echo_cons h, fields_echo hws,
    List.intercalate_singleton]

end Pisces.Lib.Awk
