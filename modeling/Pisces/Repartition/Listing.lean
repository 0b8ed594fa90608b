import Pisces.Lib.AwkPrint
import Pisces.Repartition.Model

/-!
# What the script reads

A listing has one row for each partition, and the awk programs pick the rows of
partitions 26 and 27 out of it. What they take from there are texts of numbers,
and so are the texts they print for one another; here is which numbers.
-/

namespace Pisces.Repartition

open Pisces.Lib Pisces.Lib.Awk

variable {env : Env} {d : Disk} {newsize : Text} {prev : Part} {n : ℤ}

/-! ## The rows -/

theorem natText_injective {m n : ℕ} (h : natText m = natText n) : m = n := by
  have hvalue := congrArg (Nat.ofDigitChars 10 · 0) h
  simpa only [natText, Nat.ofDigitChars_ten_toDigits] using hvalue

theorem lookup_eq_none {parts : List (ℕ × Part)} {n : ℕ} (h : n ∉ parts.map Prod.fst) :
    parts.lookup n = none := by
  rw [List.lookup_eq_none_iff]
  intro np hnp
  rw [bne_iff_ne]
  intro heq
  exact h (List.mem_map.mpr ⟨np, hnp, heq.symm⟩)

theorem mem_of_lookup {parts : List (ℕ × Part)} {n : ℕ} {p : Part}
    (h : parts.lookup n = some p) : (n, p) ∈ parts := by
  induction parts with
  | nil => cases h
  | cons np parts ih =>
      rw [List.lookup_cons] at h
      by_cases hn : n = np.1
      · rw [hn, beq_self_eq_true] at h
        cases h
        exact List.mem_cons.mpr (.inl (by rw [hn]))
      · rw [beq_eq_false_iff_ne.mpr hn] at h
        exact List.mem_cons_of_mem _ (ih h)

/-- The rows with number `k`, of which there is one at most. -/
theorem filterMap_row {α : Type} {parts : List (ℕ × Part)} (h : (parts.map Prod.fst).Nodup)
    (k : ℕ) (g : Part → α) :
    (parts.filterMap fun np => if np.1 = k then some (g np.2) else none) =
      ((parts.lookup k).map g).toList := by
  induction parts with
  | nil => rfl
  | cons np parts ih =>
      rw [List.map_cons, List.nodup_cons] at h
      obtain ⟨n, p⟩ := np
      rw [List.filterMap_cons, List.lookup_cons]
      by_cases hn : n = k
      · subst hn
        rw [if_pos rfl, beq_self_eq_true, ih h.2, lookup_eq_none h.1]
        rfl
      · rw [if_neg hn, show (k == n) = false from beq_eq_false_iff_ne.mpr (Ne.symm hn)]
        exact ih h.2

theorem datastorageLines_eq {total : Text} (h : isTrue total = true) (lines : List (List Text)) :
    datastorageLines total lines = lines.filterMap fun line =>
      if field line 1 = natText (dataPartnum - 1) then
        some (print (sub (num total) (num (field line 3))))
      else none := by
  induction lines with
  | nil => rfl
  | cons line lines ih =>
      rw [datastorageLines, h, List.filterMap_cons, ih]
      by_cases hline : field line 1 = natText (dataPartnum - 1)
      · simp only [Bool.not_true, Bool.false_eq_true, if_false, if_pos hline]
      · simp only [Bool.not_true, Bool.false_eq_true, if_false, if_neg hline]

/-- A listing with one row for each number. -/
def Disk.Listed (d : Disk) : Prop := (d.parts.map Prod.fst).Nodup

theorem filterMap_partedPrint {α : Type} (hlisted : d.Listed) (k : ℕ) (g : List Text → α) :
    ((d.parts.map fun np => np.2.row env np.1).filterMap fun line =>
      if field line 1 = natText k then some (g line) else none) =
      ((d.part k).map fun p => g (p.row env k)).toList := by
  rw [List.filterMap_map]
  refine Eq.trans ?_ (filterMap_row hlisted k fun p => g (p.row env k))
  refine List.filterMap_congr fun np _ => ?_
  by_cases hn : np.1 = k
  · rw [if_pos hn, ← hn]
    exact if_pos rfl
  · rw [if_neg hn]
    exact if_neg fun heq => hn (natText_injective heq)

theorem getDatastorageSize_eq {q : Part} (hlisted : d.Listed)
    (hq : d.part (dataPartnum - 1) = some q)
    (hsize : isTrue (env.shown d.size) = true) :
    getDatastorageSize env d =
      print (sub (num (env.shown d.size)) (num (env.shown (q.finish - 1)))) := by
  have hzero : isTrue ['0'] = false := by decide +kernel
  rw [getDatastorageSize, partedPrint, datastorageLines, hzero]
  have hfield : field ["/dev/block/mmcblk0".toList, env.shown d.size] 2 = env.shown d.size := rfl
  rw [Bool.not_false, if_pos rfl, hfield, datastorageLines_eq hsize,
    filterMap_partedPrint hlisted (dataPartnum - 1) fun line =>
      print (sub (num (env.shown d.size)) (num (field line 3))), hq, Option.map_some,
    Option.toList_some, List.intercalate_singleton]
  rfl

theorem getDataSize_eq {p : Part} (hlisted : d.Listed) (hp : d.part dataPartnum = some p)
    (hword : Word (env.shown p.size)) : getDataSize env d = env.shown p.size := by
  have hpath : "/dev/block/mmcblk0".toList ≠ natText dataPartnum := by decide
  have hheader : field ["/dev/block/mmcblk0".toList, env.shown d.size] 1 ≠ natText dataPartnum :=
    hpath
  have hrow : field (p.row env dataPartnum) 4 = env.shown p.size := rfl
  rw [getDataSize, partedPrint, List.filterMap_cons]
  simp only [if_neg hheader]
  rw [filterMap_partedPrint hlisted dataPartnum fun line => field line 4, hp, Option.map_some,
    Option.toList_some, List.intercalate_singleton, hrow, if_neg hword.nonempty]

/-- The last row with the number counts, and there is one at most. -/
theorem foldl_row {α : Type} {parts : List (ℕ × Part)} (h : (parts.map Prod.fst).Nodup) (k : ℕ)
    (g : List Text → α) (found : α) :
    (parts.map fun np => np.2.row env np.1).foldl
        (fun x line => if field line 1 = natText k then g line else x) found =
      (parts.lookup k).elim found fun p => g (p.row env k) := by
  induction parts generalizing found with
  | nil => rfl
  | cons np parts ih =>
      rw [List.map_cons, List.nodup_cons] at h
      obtain ⟨n, p⟩ := np
      rw [List.map_cons, List.foldl_cons, ih h.2, List.lookup_cons]
      by_cases hn : n = k
      · subst hn
        have hself : field (p.row env n) 1 = natText n := rfl
        rw [lookup_eq_none h.1, beq_self_eq_true]
        exact if_pos hself
      · rw [show (k == n) = false from beq_eq_false_iff_ne.mpr (Ne.symm hn)]
        have hother : field (p.row env n) 1 ≠ natText k := fun heq => hn (natText_injective heq)
        rw [if_neg hother]

/-- `prevend` and `databegin` are found side by side. -/
theorem foldl_newbeginStep (lines : List (List Text)) (found : Text × Text) :
    lines.foldl newbeginStep found =
      (lines.foldl (fun x line =>
          if field line 1 = natText (dataPartnum - 1) then field line 3 else x) found.1,
        lines.foldl (fun x line =>
          if field line 1 = natText dataPartnum then field line 2 else x) found.2) := by
  induction lines generalizing found with
  | nil => rfl
  | cons line lines ih => exact ih (newbeginStep found line)

/-! ## Where data begins -/

/-- Where data is to begin: where partition 27 is shown to start, unless that is
0, or where partition 26 is shown to end. -/
def shownBegin (env : Env) (d : Disk) (prev : Part) : Text :=
  match d.part dataPartnum with
  | some p =>
      if isTrue (env.shown p.start) then env.shown p.start else env.shown (prev.finish - 1)
  | none => env.shown (prev.finish - 1)

theorem datastorageLines_nil {parts : List (ℕ × Part)}
    (h : ∀ np ∈ parts, np.1 ≠ dataPartnum - 1) (total : Text) :
    datastorageLines total (parts.map fun np => np.2.row env np.1) = [] := by
  induction parts generalizing total with
  | nil => rfl
  | cons np parts ih =>
      have hrest := ih fun x hx => h x (List.mem_cons_of_mem np hx)
      have hother : field (np.2.row env np.1) 1 ≠ natText (dataPartnum - 1) :=
        fun heq => h np List.mem_cons_self (natText_injective heq)
      rw [List.map_cons, datastorageLines, if_neg hother, hrest, hrest, ite_self]

/-- There is one line about partition 26, and so one size at most. -/
theorem datastorageLines_cases {parts : List (ℕ × Part)} (h : (parts.map Prod.fst).Nodup)
    (total : Text) :
    datastorageLines total (parts.map fun np => np.2.row env np.1) = [] ∨
      ∃ x, datastorageLines total (parts.map fun np => np.2.row env np.1) = [print x] := by
  induction parts generalizing total with
  | nil => exact .inl rfl
  | cons np parts ih =>
      rw [List.map_cons, List.nodup_cons] at h
      rw [List.map_cons, datastorageLines]
      split
      · exact ih h.2 _
      · split
        · next hself =>
            have hnone : ∀ x ∈ parts, x.1 ≠ dataPartnum - 1 := by
              intro x hx heq
              refine h.1 (List.mem_map.mpr ⟨x, hx, heq.trans ?_⟩)
              exact (natText_injective hself).symm
            rw [datastorageLines_nil hnone]
            exact .inr ⟨_, rfl⟩
        · exact ih h.2 _

/-- The size of data and storage is a printed number, if there is a text at all. -/
theorem getDatastorageSize_cases (h : d.Listed) :
    getDatastorageSize env d = [] ∨ ∃ x, getDatastorageSize env d = print x := by
  have hzero : isTrue ['0'] = false := by decide +kernel
  rw [getDatastorageSize, partedPrint, datastorageLines, hzero, Bool.not_false, if_pos rfl]
  rcases datastorageLines_cases h _ with hnil | ⟨x, hx⟩
  · exact .inl (by rw [hnil]; rfl)
  · exact .inr ⟨x, by rw [hx, List.intercalate_singleton]⟩

theorem dataNewbegin_shown (hlisted : d.Listed) (hprev : d.part (dataPartnum - 1) = some prev) :
    dataNewbegin env d = shownBegin env d prev := by
  have hzero : isTrue ['0'] = false := by decide +kernel
  have hheader : newbeginStep (['0'], ['0']) ["/dev/block/mmcblk0".toList, env.shown d.size] =
      (['0'], ['0']) := rfl
  have hfound : (partedPrint env d).foldl newbeginStep (['0'], ['0']) =
      (env.shown (prev.finish - 1),
        (d.part dataPartnum).elim ['0'] fun p => env.shown p.start) := by
    rw [partedPrint, List.foldl_cons, hheader, foldl_newbeginStep,
      foldl_row hlisted (dataPartnum - 1) fun line => field line 3,
      foldl_row hlisted dataPartnum fun line => field line 2]
    rw [Disk.part] at hprev
    rw [hprev]
    rfl
  rw [dataNewbegin, hfound, shownBegin]
  cases d.part dataPartnum with
  | none => simp only [Option.elim_none, hzero, Bool.false_eq_true, if_false]
  | some p => rfl

theorem dataNewbegin_eq {p : Part} (hlisted : d.Listed)
    (hprev : d.part (dataPartnum - 1) = some prev) (hp : d.part dataPartnum = some p)
    (hstart : isTrue (env.shown p.start) = true) :
    dataNewbegin env d = env.shown p.start := by
  rw [dataNewbegin_shown hlisted hprev, shownBegin, hp]
  simp only [hstart, if_true]

/-! ## parted -/

/-- What is relied on of parted: it shows the nearest number it can, which is a
whole one from 100 MiB on. -/
structure Parted (shown : ℕ → Text) : Prop where
  word : ∀ b, Word (shown b)
  numeric : ∀ b, looksNumeric (shown b) = true
  close : ∀ b, b < 100 * MiB → |num (shown b) * MiB - b| ≤ MiB / 2
  whole : ∀ b, 100 * MiB ≤ b → ∃ k : ℤ, shown b = intText k ∧ |(k : ℚ) * MiB - b| ≤ MiB / 2

/-- A whole number of MiB and a number of bytes that are close. -/
theorem close_int {b : ℤ} {s : ℕ} (hclose : |(b : ℚ) * MiB - s| ≤ MiB / 2) :
    2 * (s : ℤ) ≤ 2 * (b * MiB) + MiB ∧ 2 * (b * MiB) ≤ 2 * (s : ℤ) + MiB := by
  obtain ⟨hlow, hhigh⟩ := abs_le.mp hclose
  have hlow' : 2 * (s : ℚ) ≤ 2 * (b * MiB) + MiB := by linarith
  have hhigh' : 2 * ((b : ℚ) * MiB) ≤ 2 * s + MiB := by linarith
  exact ⟨by exact_mod_cast hlow', by exact_mod_cast hhigh'⟩

/-- A number of MiB as parted shows it, on a disk it can address. -/
structure ShownWhole (env : Env) (b : ℕ) (k : ℤ) : Prop where
  text : env.shown b = intText k
  num : num (env.shown b) = k
  bounds : 100 ≤ k ∧ k ≤ 2 ^ 52
  close : |(k : ℚ) * MiB - b| ≤ MiB / 2

theorem Parted.shownWhole {b : ℕ} (h : Parted env.shown) (hb : 100 * MiB ≤ b)
    (haddressed : b < 2 ^ 72) : ∃ k, ShownWhole env b k := by
  obtain ⟨k, htext, hclose⟩ := h.whole b hb
  obtain ⟨hlow, hhigh⟩ := close_int hclose
  have hbounds : 100 ≤ k ∧ k ≤ 2 ^ 52 := by
    simp only [MiB] at *
    omega
  refine ⟨k, htext, ?_, hbounds, hclose⟩
  rw [htext, num_intText (abs_le.mpr ⟨by omega, by omega⟩)]

theorem Parted.near {b : ℕ} (h : Parted env.shown) (haddressed : b < 2 ^ 72) :
    |num (env.shown b) * MiB - b| ≤ MiB / 2 := by
  rcases lt_or_ge b (100 * MiB) with hb | hb
  · exact h.close b hb
  · obtain ⟨k, hk⟩ := h.shownWhole hb haddressed
    rw [hk.num]
    exact hk.close

theorem Parted.isTrue {b : ℕ} (h : Parted env.shown) (hb : 100 * MiB ≤ b)
    (haddressed : b < 2 ^ 72) : isTrue (env.shown b) = true := by
  obtain ⟨k, hk⟩ := h.shownWhole hb haddressed
  rw [isTrue_of_numeric (h.numeric b), decide_eq_true_iff, hk.num, Int.cast_ne_zero]
  have hpos := hk.bounds.1
  omega

/-! ## Numbers -/

/-- An awk program on two words, of which the first can have blanks around it. -/
theorem prints_pair {t a b : Text} (ha : Padded t a) (hb : Word b) (expr : List Text → ℚ) :
    prints expr (echo [t, b]) = print (expr [a, b]) :=
  prints_echo ha (List.forall_mem_singleton.mpr hb) expr

theorem exits_pair {t a b : Text} (ha : Padded t a) (hb : Word b) (cond : List Text → Bool) :
    exits cond (echo [t, b]) = cond [a, b] :=
  exits_echo ha (List.forall_mem_singleton.mpr hb) cond

/-- A text that is one number. -/
structure IsNumber (t : Text) : Prop where
  word : Word t
  numeric : looksNumeric t = true

theorem isNumber_intText (z : ℤ) : IsNumber (intText z) := ⟨word_intText z, looksNumeric_intText z⟩

theorem isNumber_print (q : ℚ) : IsNumber (print q) := ⟨word_print q, looksNumeric_print q⟩

theorem word_natText (n : ℕ) : Word (natText n) := by
  rw [← intText_natCast]
  exact word_intText n

theorem num_natText_eq_double (n : ℕ) : num (natText n) = double n := by
  rw [← intText_natCast, num_intText_eq_double, Int.cast_natCast]

theorem num_natText {n : ℕ} (h : n ≤ 2 ^ 53) : num (natText n) = n := by
  rw [← intText_natCast, num_intText (abs_le.mpr ⟨by omega, by omega⟩), Int.cast_natCast]

/-! ## The minimum -/

/-- So many blocks and the reserve in MiB, as awk computes it. -/
def minsizeOf (minblocks blocksize : ℕ) : ℚ :=
  add (div (div (mul (double minblocks) (double blocksize)) 1024) 1024) shrinkReserveSize

/-- The least size of data before it is printed. -/
def minsizeNumber (d : Disk) : ℚ :=
  match d.fs with
  | none => minsizeOf 0 4096
  | some f => minsizeOf f.minblocks f.blocksize

theorem getDataMinsize_eq (d : Disk) : getDataMinsize d = print (minsizeNumber d) := by
  have hwords : ∀ b : ℕ, ∀ x ∈ [natText b, natText shrinkReserveSize], Word x := fun b =>
    List.forall_mem_cons.mpr ⟨word_natText b, List.forall_mem_singleton.mpr (word_natText _)⟩
  have hexpr : ∀ m b : ℕ,
      add (div (div (mul (num (natText m)) (num (natText b))) 1024) 1024)
        (num (natText shrinkReserveSize)) = minsizeOf m b := by
    intro m b
    rw [num_natText_eq_double, num_natText_eq_double, num_natText (by decide), minsizeOf]
  unfold getDataMinsize getDataBlocksize minsizeNumber
  cases d.fs with
  | none =>
      have hprint := prints_echo (word_natText 0).padded (hwords 4096) fun fs =>
        add (div (div (mul (num (field fs 1)) (num (field fs 2))) 1024) 1024) (num (field fs 3))
      exact hprint.trans (congrArg print (hexpr 0 4096))
  | some f =>
      -- the text that dumpe2fs shows begins with a blank
      have hpadded : Padded (' ' :: natText f.minblocks) (natText f.minblocks) := by
        refine ⟨word_natText _, ⟨[' '], [], by rw [List.append_nil]; rfl, ?_⟩, ?_⟩
        · exact List.forall_mem_singleton.mpr rfl
        · rw [List.mem_cons, not_or]
          exact ⟨by decide, (word_natText _).oneLine⟩
      have hprint := prints_echo hpadded (hwords f.blocksize) fun fs =>
        add (div (div (mul (num (field fs 1)) (num (field fs 2))) 1024) 1024) (num (field fs 3))
      exact hprint.trans (congrArg print (hexpr f.minblocks f.blocksize))

theorem eight_le_minsizeNumber (d : Disk) : 8 ≤ minsizeNumber d := by
  have hzero : IsDouble 0 := isDouble_intCast (k := 0) (by decide)
  have height : IsDouble 8 := isDouble_intCast (k := 8) (by decide)
  have hnat : ∀ n : ℕ, 0 ≤ double n := fun n => le_double hzero (Nat.cast_nonneg n)
  have hdiv : ∀ {x : ℚ}, 0 ≤ x → 0 ≤ div x 1024 :=
    fun hx => le_double hzero (div_nonneg hx (by norm_num))
  have hall : ∀ m b : ℕ, 8 ≤ minsizeOf m b := by
    intro m b
    have hneeds := hdiv (hdiv (le_double hzero (mul_nonneg (hnat m) (hnat b))))
    refine le_double height ?_
    rw [show (shrinkReserveSize : ℚ) = 8 by norm_num [shrinkReserveSize]]
    exact le_add_of_nonneg_left hneeds
  unfold minsizeNumber
  split
  · exact hall _ _
  · exact hall _ _

theorem getDataBlocksize_eq {f : Fs} {k : ℕ} (hfs : d.fs = some f) (hblock : f.blocksize = 2 ^ k) :
    getDataBlocksize d = natText (2 ^ k) := by
  rw [getDataBlocksize, hfs]
  exact congrArg natText hblock

theorem seven_lt_minsize (d : Disk) : 7 < num (print (minsizeNumber d)) := by
  have hmin := eight_le_minsizeNumber d
  have hclose := (abs_le.mp (num_print_close (minsizeNumber d))).1
  rw [abs_of_nonneg (by linarith)] at hclose
  linarith

/-! ## The comparisons -/

variable {t : Text}

theorem tooSmall_eq (hpad : Padded newsize t) (h : looksNumeric t = true) (d : Disk) :
    tooSmall newsize (getDataMinsize d) = decide (num t < num (print (minsizeNumber d))) := by
  rw [getDataMinsize_eq, tooSmall, exits_pair hpad (word_print _)]
  exact lt_of_numeric h (looksNumeric_print _)

theorem tooLarge_eq {ds : Text} (hpad : Padded newsize t) (h : looksNumeric t = true)
    (hds : IsNumber ds) : tooLarge newsize ds = decide (num ds < num t) := by
  rw [tooLarge, exits_pair hpad hds.word]
  exact lt_of_numeric hds.numeric h

/-- No size under the reserve is let through. -/
theorem eight_le (hsmall : tooSmall (intText n) (getDataMinsize d) = false) : 8 ≤ n := by
  rw [tooSmall_eq (word_intText n).padded (looksNumeric_intText n), decide_eq_false_iff_not, not_lt,
    num_intText_eq_double] at hsmall
  by_contra hless
  have hseven : (n : ℚ) ≤ (7 : ℤ) := Int.cast_le.mpr (by omega)
  have hdouble := double_le (isDouble_intCast (by decide)) hseven
  push_cast at hdouble
  exact absurd (seven_lt_minsize d) (not_lt.mpr (hsmall.trans hdouble))

/-- A size that is not more than what there is has so many bits at most, too. -/
theorem le_of_notLarge {ds : Text} {s : ℤ} (hds : IsNumber ds) (hnum : num ds = s)
    (hs : |s| < 2 ^ 53) (hlarge : tooLarge (intText n) ds = false) : n ≤ s := by
  rw [tooLarge_eq (word_intText n).padded (looksNumeric_intText n) hds, decide_eq_false_iff_not,
    not_lt, num_intText_eq_double, hnum] at hlarge
  by_contra hmore
  have hnext : ((s + 1 : ℤ) : ℚ) ≤ n := Int.cast_le.mpr (by omega)
  have hbits : |s + 1| ≤ 2 ^ 53 := by
    rw [abs_lt] at hs
    exact abs_le.mpr ⟨by omega, by omega⟩
  have hle := Int.cast_le.mp ((le_double (isDouble_intCast hbits) hnext).trans hlarge)
  omega
/-- Storage is left out if there are less than 64 MiB for it. -/
theorem storageNewsize_zero {ds : Text} (hpad : Padded newsize t) (hds : IsNumber ds) :
    storageNewsize newsize ds = ['0'] ↔ sub (num ds) (num t) < 64 := by
  have hprint : storageNewsize newsize ds =
      print (if sub (num ds) (num t) < 64 then 0 else sub (num ds) (num t)) :=
    prints_pair hpad hds.word _
  rw [hprint]
  split
  · next hless => exact iff_of_true (print_intCast 0) hless
  · next hmore =>
      refine iff_of_false (fun hzero => ?_) hmore
      have hclose := (abs_le.mp (num_print_close (sub (num ds) (num t)))).1
      have hnum : num ['0'] = 0 := num_intText (z := 0) (by decide)
      rw [hzero, hnum, abs_of_nonneg (by linarith)] at hclose
      linarith

end Pisces.Repartition
