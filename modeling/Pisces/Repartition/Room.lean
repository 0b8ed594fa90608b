import Pisces.Repartition.Checks

/-!
# Whether an accepted size can be carried out

The checks go by the end of partition 26, and so does the size of storage. The
new data partition begins where partition 27 did. When there is a gap between
the two, or the shown numbers are not the exact ones, a size can be accepted for
which there is no room, and mkpart finds that out when the old partitions are
gone.
-/

namespace Pisces.Repartition

open Pisces.Lib Pisces.Lib.Awk

variable {env : Env} {d : Disk} {prev : Part} {n : ℤ}

/-- A table with partition 26, and 27 after it if there is one. -/
structure Listing (d : Disk) (prev : Part) : Prop where
  listed : d.Listed
  before : d.part (dataPartnum - 1) = some prev
  order : ∀ p, d.part dataPartnum = some p → prev.finish ≤ p.start
  inside : prev.finish ≤ d.size ∧ ∀ p, d.part dataPartnum = some p → p.start ≤ d.size
  usable : d.usable ≤ d.size

/-- The size passes the checks. -/
structure Passes (env : Env) (newsize : Text) (d : Disk) : Prop where
  detected : getDatastorageSize env d ≠ []
  notSmall : tooSmall newsize (getDataMinsize d) = false
  notLarge : tooLarge newsize (getDatastorageSize env d) = false

/-- There is room for the plan: data is on the disk and after partition 26, and
storage is left out or has 64 MiB up to the end of the disk. -/
structure Room (d : Disk) (prev : Part) (q : Plan) : Prop where
  after : prev.finish ≤ q.newbegin.byte d
  inside : q.newbegin.byte d < q.newend.byte d ∧ q.newend.byte d ≤ d.size
  storage : q.newend = .full ∨ q.newend.byte d + 64 * MiB ≤ d.size

/-! ## The plan -/

/-- There is room for `n` MiB where data is shown to begin: that is not before
the end of partition 26, and if storage is left, the disk has the 64 MiB for it
that the sizes shown leave. -/
structure HasRoom (env : Env) (d : Disk) (prev : Part) (n : ℤ) : Prop where
  after : prev.finish ≤ ⌊num (shownBegin env d prev) * MiB⌋.toNat
  whole : sub (num (getDatastorageSize env d)) (num (intText n)) < 64 →
    ⌊num (shownBegin env d prev) * MiB⌋.toNat < d.usable
  storage : 64 ≤ sub (num (getDatastorageSize env d)) (num (intText n)) →
    ⌊num (print (add (num (shownBegin env d prev)) (num (intText n)))) * MiB⌋.toNat + 64 * MiB ≤
      d.size

/-- Where data is to begin and to end. -/
theorem plan_ends (hds : IsNumber (getDatastorageSize env d))
    (hbegin : IsNumber (dataNewbegin env d)) :
    (plan env (intText n) d).newbegin = .mib (dataNewbegin env d) ∧
      (plan env (intText n) d).newend =
        if sub (num (getDatastorageSize env d)) (num (intText n)) < 64 then .full
        else .mib (print (add (num (dataNewbegin env d)) (num (intText n)))) := by
  have hzero := storageNewsize_zero (word_intText n).padded hds
  refine ⟨rfl, ?_⟩
  unfold plan
  by_cases hless : sub (num (getDatastorageSize env d)) (num (intText n)) < 64
  · simp only [if_pos hless, if_pos (hzero.mpr hless)]
  · simp only [if_neg hless, if_neg (mt hzero.mp hless)]
    rw [prints_pair hbegin.word.padded (word_intText n)]
    rfl

theorem eight_le_num (h : 8 ≤ n) : 8 ≤ num (intText n) := by
  rw [num_intText_eq_double]
  exact le_double (isDouble_intCast (k := 8) (by decide)) (by exact_mod_cast h)

/-- The end is printed so that it is a MiB after the begin at least. -/
theorem printed_end (hparted : Parted env.shown) (hn : 8 ≤ n) {b : ℕ} (hb : b < 2 ^ 72) :
    num (env.shown b) + 1 ≤ num (print (add (num (env.shown b)) (num (intText n)))) := by
  have hn' := eight_le_num hn
  have hpos : (0 : ℚ) < MiB := by norm_num [MiB]
  rcases le_or_gt (100 * MiB) b with hlarge | hsmall
  · -- a whole number, and so is the end
    obtain ⟨k, hk⟩ := hparted.shownWhole hlarge hb
    obtain ⟨x, hx⟩ := exists_intCast_double n
    obtain ⟨z, hz⟩ := exists_intCast_double (k + x)
    rw [num_intText_eq_double, hx] at hn' ⊢
    have hend : add (num (env.shown b)) x = z := by rw [hk.num, add, ← Int.cast_add, hz]
    have hself : double z = z := double_eq (by rw [← hz]; exact isDouble_double _)
    rw [hend, print_intCast, num_intText_eq_double, hself, hk.num, ← hz]
    have hnext : IsDouble ((k + 1 : ℤ) : ℚ) := by
      have hbounds := hk.bounds
      exact isDouble_intCast (abs_le.mpr ⟨by omega, by omega⟩)
    have hle := le_double (q := ((k + x : ℤ) : ℚ)) hnext (by push_cast; linarith)
    push_cast at hle ⊢
    exact hle
  · -- a small number, and six digits are precise enough
    obtain ⟨hlow, hhigh⟩ := abs_le.mp (hparted.close b hsmall)
    have hb' : (b : ℚ) < 100 * MiB := by exact_mod_cast hsmall
    have hb0 : (0 : ℚ) ≤ b := Nat.cast_nonneg b
    have hless : num (env.shown b) < 101 := by
      refine lt_of_mul_lt_mul_right ?_ hpos.le
      linarith
    have hmore : -1 < num (env.shown b) := by
      refine lt_of_mul_lt_mul_right ?_ hpos.le
      linarith
    have hsum := (abs_le.mp (double_close (num (env.shown b) + num (intText n)))).1
    rw [abs_of_nonneg (by linarith)] at hsum
    have hprint := (abs_le.mp (num_print_close (add (num (env.shown b)) (num (intText n))))).1
    have hadd : add (num (env.shown b)) (num (intText n)) =
        double (num (env.shown b) + num (intText n)) := rfl
    rw [abs_of_nonneg (by rw [hadd]; linarith)] at hprint
    rw [← hadd] at hsum
    linarith

theorem floor_toNat_lt {x y : ℚ} (hx : -1 / 2 ≤ x) (hxy : x + 1 ≤ y) :
    ⌊x * MiB⌋.toNat < ⌊y * MiB⌋.toNat := by
  have hpos : (0 : ℚ) < MiB := by norm_num [MiB]
  have hstep : ⌊x * MiB⌋ + MiB ≤ ⌊y * MiB⌋ := by
    rw [Int.le_floor]
    have hfloor := Int.floor_le (x * (MiB : ℚ))
    have hmul := mul_le_mul_of_nonneg_right hxy hpos.le
    push_cast
    linarith
  have hlow : -(MiB / 2 : ℤ) ≤ ⌊x * MiB⌋ := by
    rw [Int.le_floor]
    have hmul := mul_le_mul_of_nonneg_right hx hpos.le
    norm_num [MiB] at hmul ⊢
    linarith
  simp only [MiB] at *
  omega

/-- Without storage, data needs a place after partition 26. -/
theorem room_iff_of_full {q : Plan} (husable : d.usable ≤ d.size) (hend : q.newend = .full) :
    Room d prev q ↔ prev.finish ≤ q.newbegin.byte d ∧ q.newbegin.byte d < d.usable := by
  constructor
  · intro hroom
    obtain ⟨hafter, hinside, -⟩ := hroom
    rw [hend] at hinside
    exact ⟨hafter, hinside.1⟩
  · intro hfits
    obtain ⟨hafter, hbegins⟩ := hfits
    refine ⟨hafter, ?_, .inl hend⟩
    rw [hend]
    exact ⟨hbegins, husable⟩

/-- With storage, data fits where storage fits after it. -/
theorem room_iff_of_mib {q : Plan} (hend : q.newend ≠ .full)
    (hnext : q.newbegin.byte d < q.newend.byte d) :
    Room d prev q ↔ prev.finish ≤ q.newbegin.byte d ∧ q.newend.byte d + 64 * MiB ≤ d.size := by
  constructor
  · intro hroom
    obtain ⟨hafter, -, hstorage⟩ := hroom
    exact ⟨hafter, hstorage.resolve_left hend⟩
  · intro hfits
    obtain ⟨hafter, hfits⟩ := hfits
    exact ⟨hafter, ⟨hnext, (Nat.le_add_right _ _).trans hfits⟩, .inr hfits⟩

/-! ## One size -/

theorem getDatastorageSize_isNumber (ht : Listing d prev)
    (hdetected : getDatastorageSize env d ≠ []) : IsNumber (getDatastorageSize env d) := by
  rcases getDatastorageSize_cases ht.listed with hnil | ⟨x, hx⟩
  · exact absurd hnil hdetected
  · rw [hx]
    exact isNumber_print x

/-- Where data is to begin, parted has shown a place on the disk. -/
theorem Listing.shownBegin (ht : Listing d prev) (env : Env) :
    ∃ b, shownBegin env d prev = env.shown b ∧ prev.finish - 1 ≤ b ∧ b < 2 ^ 72 := by
  have haddressed := d.addressed
  have hlast := ht.inside.1
  have husable := ht.usable
  unfold Repartition.shownBegin
  split
  · next p hp =>
      split
      · have horder := ht.order p hp
        have hstart := ht.inside.2 p hp
        exact ⟨_, rfl, by omega, by omega⟩
      · exact ⟨_, rfl, le_rfl, by omega⟩
  · exact ⟨_, rfl, le_rfl, by omega⟩

/-- The plan for a size that passes the checks has room if and only if the table
has. -/
theorem room_iff_hasRoom (hparted : Parted env.shown) (ht : Listing d prev)
    (hpass : Passes env (intText n) d) :
    Room d prev (plan env (intText n) d) ↔ HasRoom env d prev n := by
  have hds := getDatastorageSize_isNumber ht hpass.detected
  obtain ⟨b, hb, -, hbits⟩ := ht.shownBegin env
  have hbegin : IsNumber (dataNewbegin env d) := by
    rw [dataNewbegin_shown ht.listed ht.before, hb]
    exact ⟨hparted.word b, hparted.numeric b⟩
  obtain ⟨hnewbegin, hnewend⟩ := @plan_ends env d n hds hbegin
  rw [dataNewbegin_shown ht.listed ht.before] at hnewbegin hnewend
  have hnext : ⌊num (shownBegin env d prev) * MiB⌋.toNat <
      ⌊num (print (add (num (shownBegin env d prev)) (num (intText n)))) * MiB⌋.toNat := by
    rw [hb]
    refine floor_toNat_lt ?_ (printed_end hparted (eight_le hpass.notSmall) hbits)
    have hpos : (0 : ℚ) < MiB := by norm_num [MiB]
    have hlow := (abs_le.mp (hparted.near hbits)).1
    have hb0 : (0 : ℚ) ≤ b := Nat.cast_nonneg b
    refine le_of_mul_le_mul_right ?_ hpos
    linarith
  by_cases hless : sub (num (getDatastorageSize env d)) (num (intText n)) < 64
  · rw [if_pos hless] at hnewend
    rw [room_iff_of_full ht.usable hnewend, hnewbegin]
    constructor
    · intro hwhole
      obtain ⟨hafter, hwhole⟩ := hwhole
      exact ⟨hafter, fun _ => hwhole, fun hmore => absurd hless (not_lt.mpr hmore)⟩
    · exact fun hroom => ⟨hroom.after, hroom.whole hless⟩
  · rw [if_neg hless] at hnewend
    have hbyte : (plan env (intText n) d).newend.byte d =
        ⌊num (print (add (num (shownBegin env d prev)) (num (intText n)))) * MiB⌋.toNat := by
      rw [hnewend, Pos.byte]
    have hsome : (plan env (intText n) d).newend ≠ .full := by
      rw [hnewend]
      exact Pos.noConfusion
    rw [room_iff_of_mib hsome (by rw [hbyte, hnewbegin]; exact hnext), hbyte, hnewbegin]
    constructor
    · intro hfits
      obtain ⟨hafter, hfits⟩ := hfits
      exact ⟨hafter, fun h => absurd h hless, fun _ => hfits⟩
    · exact fun hroom => ⟨hroom.after, hroom.storage (not_lt.mp hless)⟩

/-! ## Every size -/

/-- What parted shows for data and storage together, in MiB. -/
def available (env : Env) (d : Disk) (prev : Part) : ℚ :=
  num (env.shown d.size) - num (env.shown (prev.finish - 1))

/-- The table has room for every size. If there is a size that passes at all, the place
where parted shows data to start is not before the end of partition 26 and is before
the end of the usable space. And if there is one that leaves 64 MiB, what is
available from that place on is on the disk: parted shows no gap between partition
26 and data, or at most as much as it takes off the size of the disk. -/
structure WholeRoom (env : Env) (d : Disk) (prev : Part) : Prop where
  after : num (getDataMinsize d) ≤ available env d prev →
    (prev.finish : ℚ) ≤ num (shownBegin env d prev) * MiB
  before : num (getDataMinsize d) ≤ available env d prev →
    num (shownBegin env d prev) * MiB < d.usable
  storage : num (getDataMinsize d) + 64 ≤ available env d prev →
    (num (shownBegin env d prev) + available env d prev) * MiB ≤ d.size

/-- A table whose partition 26 ends where parted shows whole numbers. -/
structure WholeListing (env : Env) (d : Disk) (prev : Part) (t l s : ℤ) : Prop where
  total : ShownWhole env d.size t
  last : ShownWhole env (prev.finish - 1) l
  start : ∃ b, shownBegin env d prev = env.shown b ∧ ShownWhole env b s
  size : getDatastorageSize env d = intText (t - l)

theorem Listing.whole (hparted : Parted env.shown) (ht : Listing d prev)
    (hprev : 100 * MiB < prev.finish) :
    ∃ total last start, WholeListing env d prev total last start := by
  have haddressed := d.addressed
  have hlast := ht.inside.1
  have husable := ht.usable
  obtain ⟨b, hb, hblow, hbits⟩ := ht.shownBegin env
  have hsize : 100 * MiB ≤ d.size := by omega
  obtain ⟨total, htotal⟩ := hparted.shownWhole hsize haddressed
  obtain ⟨last, hlast⟩ := hparted.shownWhole (b := prev.finish - 1) (by omega) (by omega)
  obtain ⟨start, hstart⟩ := hparted.shownWhole (b := b) (by omega) hbits
  refine ⟨total, last, start, htotal, hlast, ⟨b, hb, hstart⟩, ?_⟩
  have htotalBound := htotal.bounds
  have hlastBound := hlast.bounds
  rw [getDatastorageSize_eq ht.listed ht.before (hparted.isTrue hsize haddressed), htotal.num,
    hlast.num, sub_intCast (abs_le.mpr ⟨by omega, by omega⟩), print_intCast]

section

variable {t l s : ℤ} (h : WholeListing env d prev t l s)
include h

theorem WholeListing.available : available env d prev = (t - l : ℤ) := by
  rw [Repartition.available, h.total.num, h.last.num, Int.cast_sub]

theorem WholeListing.begins : num (Repartition.shownBegin env d prev) = s := by
  obtain ⟨b, hb, hstart⟩ := h.start
  rw [hb, hstart.num]

/-- The sizes that pass. -/
theorem WholeListing.passes_iff :
    Passes env (intText n) d ↔ num (getDataMinsize d) ≤ n ∧ 8 ≤ n ∧ n ≤ t - l := by
  have htotal := h.total.bounds
  have hlast := h.last.bounds
  have hds : num (intText (t - l)) = (t - l : ℤ) :=
    num_intText (abs_le.mpr ⟨by omega, by omega⟩)
  have hnum : 8 ≤ n ∧ n ≤ t - l → num (intText n) = n :=
    fun hn => num_intText (abs_le.mpr ⟨by omega, by omega⟩)
  have hsmall := tooSmall_eq (word_intText n).padded (looksNumeric_intText n) d
  have hlarge := tooLarge_eq (word_intText n).padded (looksNumeric_intText n)
    (isNumber_intText (t - l))
  rw [getDataMinsize_eq] at hsmall ⊢
  constructor
  · rintro ⟨-, hnotSmall, hnotLarge⟩
    rw [h.size] at hnotLarge
    have hn : 8 ≤ n ∧ n ≤ t - l :=
      ⟨eight_le hnotSmall, le_of_notLarge (isNumber_intText _) hds
        (abs_lt.mpr ⟨by omega, by omega⟩) hnotLarge⟩
    rw [getDataMinsize_eq, hsmall, decide_eq_false_iff_not, not_lt, hnum hn] at hnotSmall
    exact ⟨hnotSmall, hn⟩
  · rintro ⟨hmin, hn⟩
    refine ⟨?_, ?_, ?_⟩
    · rw [h.size]
      exact (word_intText _).nonempty
    · rw [getDataMinsize_eq, hsmall, hnum hn, decide_eq_false_iff_not, not_lt]
      exact hmin
    · rw [h.size, hlarge, hds, hnum hn, decide_eq_false_iff_not, not_lt]
      exact_mod_cast hn.2

/-- In whole MiB the numbers of the plan are the sums they should be. -/
theorem WholeListing.hasRoom_iff (hn : 8 ≤ n ∧ n ≤ t - l) :
    HasRoom env d prev n ↔ (prev.finish : ℤ) ≤ s * MiB ∧
      (t - l - n < 64 → s * MiB < d.usable) ∧
      (64 ≤ t - l - n → (s + n + 64) * MiB ≤ d.size) := by
  have htotal := h.total.bounds
  have hlast := h.last.bounds
  have hstart : 100 ≤ s ∧ s ≤ 2 ^ 52 := by
    obtain ⟨b, -, hstart⟩ := h.start
    exact hstart.bounds
  have hnum : num (intText n) = n := num_intText (abs_le.mpr ⟨by omega, by omega⟩)
  have hsub : sub (num (getDatastorageSize env d)) (num (intText n)) = (t - l - n : ℤ) := by
    rw [h.size, hnum, num_intText (abs_le.mpr ⟨by omega, by omega⟩),
      sub_intCast (abs_le.mpr ⟨by omega, by omega⟩)]
  have hadd : num (print (add (num (Repartition.shownBegin env d prev)) (num (intText n)))) =
      (s + n : ℤ) := by
    have hbits : |s + n| ≤ 2 ^ 53 := abs_le.mpr ⟨by omega, by omega⟩
    rw [h.begins, hnum, add_intCast hbits, print_intCast, num_intText hbits]
  have hfloor : ∀ k : ℤ, ⌊(k : ℚ) * MiB⌋.toNat = (k * MiB).toNat := by
    intro k
    rw [show (k : ℚ) * MiB = ((k * MiB : ℤ) : ℚ) by push_cast; rfl, Int.floor_intCast]
  have hless : ((t - l - n : ℤ) : ℚ) < 64 ↔ t - l - n < 64 := by
    exact_mod_cast Iff.rfl
  have hmore : 64 ≤ ((t - l - n : ℤ) : ℚ) ↔ 64 ≤ t - l - n := by
    exact_mod_cast Iff.rfl
  have hmib : MiB = 1048576 := rfl
  constructor
  · rintro ⟨hafter, hwhole, hstorage⟩
    rw [hsub, hless] at hwhole
    rw [hsub, hmore, hadd, hfloor] at hstorage
    rw [h.begins, hfloor] at hafter hwhole
    simp only [hmib] at *
    refine ⟨by omega, fun hl => ?_, fun hm => ?_⟩
    · have hroom := hwhole hl
      omega
    · have hroom := hstorage hm
      omega
  · rintro ⟨hafter, hwhole, hstorage⟩
    refine ⟨?_, ?_, ?_⟩
    · rw [h.begins, hfloor]
      simp only [hmib] at *
      omega
    · rw [hsub, hless, h.begins, hfloor]
      intro hl
      have hroom := hwhole hl
      simp only [hmib] at *
      omega
    · rw [hsub, hmore, hadd, hfloor]
      intro hm
      have hroom := hstorage hm
      simp only [hmib] at *
      omega

/-- The largest size that passes, and the largest that leaves storage, are the worst. -/
theorem WholeListing.wholeRoom_iff :
    (∀ n : ℤ, Passes env (intText n) d → HasRoom env d prev n) ↔ WholeRoom env d prev := by
  have hseven : 7 < num (getDataMinsize d) := by
    rw [getDataMinsize_eq]
    exact seven_lt_minsize d
  have height : ∀ {k : ℤ}, num (getDataMinsize d) ≤ k → 8 ≤ k := by
    intro k hk
    have hk' : (7 : ℚ) < k := hseven.trans_le hk
    have hk'' : 7 < k := by exact_mod_cast hk'
    omega
  constructor
  · intro hall
    have hroom : ∀ {n : ℤ}, num (getDataMinsize d) ≤ n → n ≤ t - l → _ :=
      fun {n} hmin hle => (h.hasRoom_iff ⟨height hmin, hle⟩).mp
        (hall n (h.passes_iff.mpr ⟨hmin, height hmin, hle⟩))
    refine ⟨fun hsome => ?_, fun hsome => ?_, fun hsome => ?_⟩
    · rw [h.available] at hsome
      rw [h.begins]
      exact_mod_cast (hroom hsome le_rfl).1
    · rw [h.available] at hsome
      rw [h.begins]
      exact_mod_cast (hroom hsome le_rfl).2.1 (by omega)
    · rw [h.available] at hsome ⊢
      have hsome' : num (getDataMinsize d) ≤ ((t - l - 64 : ℤ) : ℚ) := by
        push_cast at hsome ⊢
        linarith
      have hstorage := (hroom hsome' (by omega)).2.2 (by omega)
      rw [show s + (t - l - 64) + 64 = s + (t - l) by ring] at hstorage
      rw [h.begins]
      exact_mod_cast hstorage
  · intro hroom n hpass
    obtain ⟨hmin, hn⟩ := h.passes_iff.mp hpass
    have hsome : num (getDataMinsize d) ≤ Repartition.available env d prev := by
      rw [h.available]
      exact hmin.trans (Int.cast_le.mpr hn.2)
    have hafter := hroom.after hsome
    have hbefore := hroom.before hsome
    rw [h.begins] at hafter hbefore
    refine (h.hasRoom_iff hn).mpr ⟨by exact_mod_cast hafter, fun _ => by exact_mod_cast hbefore,
      fun hmore => ?_⟩
    have hmore' : ((n + 64 : ℤ) : ℚ) ≤ (t - l : ℤ) := Int.cast_le.mpr (by omega)
    have hstorage := hroom.storage (by
      rw [h.available]
      push_cast at hmore' ⊢
      linarith)
    rw [h.begins, h.available] at hstorage
    have hstorage' : (s + (t - l)) * MiB ≤ (d.size : ℤ) := by exact_mod_cast hstorage
    exact (Int.mul_le_mul_of_nonneg_right (by omega) (Int.natCast_nonneg _)).trans hstorage'

end

/-! ## The theorem -/

/-- If partition 26 ends after the first 100 MiB, the plans for all sizes that pass have
room if and only if the table has; and on any table, the plan for a size that passes has
room if and only if there is room where data is shown to begin. -/
theorem passes_room_iff (hparted : Parted env.shown) (ht : Listing d prev) :
    (100 * MiB < prev.finish →
      ((∀ n : ℤ, Passes env (intText n) d → Room d prev (plan env (intText n) d)) ↔
        WholeRoom env d prev)) ∧
    ∀ n : ℤ, Passes env (intText n) d →
      (Room d prev (plan env (intText n) d) ↔ HasRoom env d prev n) := by
  refine ⟨fun hprev => ?_, fun n hpass => room_iff_hasRoom hparted ht hpass⟩
  obtain ⟨total, last, start, h⟩ := ht.whole hparted hprev
  rw [← h.wholeRoom_iff]
  exact forall_congr' fun n => forall_congr' fun hpass => room_iff_hasRoom hparted ht hpass

/-! ## Tables in whole MiB -/

/-- A whole number of MiB is shown as it is, and so is the byte before it. -/
theorem Parted.shown_whole (hparted : Parted env.shown) {b k : ℕ} (hk : 101 ≤ k)
    (hb : b = k * MiB ∨ b = k * MiB - 1) (haddressed : b < 2 ^ 72) : num (env.shown b) = k := by
  have hmib : MiB = 1048576 := rfl
  have hlarge : 100 * MiB ≤ b := by
    rw [hmib] at hb ⊢
    omega
  obtain ⟨z, hz⟩ := hparted.shownWhole hlarge haddressed
  obtain ⟨hlow, hhigh⟩ := close_int hz.close
  have hsame : z = k := by
    rw [hmib] at hlow hhigh hb
    omega
  rw [hz.num, hsame, Int.cast_natCast]

/-- If partition 27 starts where 26 ends, at a whole MiB of a disk of whole MiB,
there is room for every size. -/
theorem wholeRoom_of_adjacent {e s : ℕ} (hparted : Parted env.shown) (ht : Listing d prev)
    (he : 101 ≤ e) (hprev : prev.finish = e * MiB) (hsize : d.size = s * MiB)
    (hend : d.size < d.usable + MiB)
    (hdata : ∀ p, d.part dataPartnum = some p → p.start = e * MiB) : WholeRoom env d prev := by
  have haddressed := d.addressed
  have hinside := ht.inside.1
  have husable := ht.usable
  have hmib : MiB = 1048576 := rfl
  have hlast : num (env.shown (prev.finish - 1)) = e :=
    hparted.shown_whole he (.inr (by rw [hprev])) (by omega)
  have htotal : num (env.shown d.size) = s := by
    refine hparted.shown_whole ?_ (.inl hsize) haddressed
    rw [hmib] at hprev hsize
    omega
  have hbegin : num (shownBegin env d prev) = e := by
    unfold shownBegin
    split
    · next p hp =>
        split
        · refine hparted.shown_whole he (.inl (hdata p hp)) ?_
          rw [hdata p hp, ← hprev]
          omega
        · exact hlast
    · exact hlast
  have hseven : 7 < num (getDataMinsize d) := by
    rw [getDataMinsize_eq]
    exact seven_lt_minsize d
  refine ⟨fun _ => ?_, fun hsome => ?_, fun _ => ?_⟩
  · rw [hbegin, hprev, Nat.cast_mul]
  · rw [available, htotal, hlast] at hsome
    rw [hbegin]
    have hless : (e + 7 : ℚ) < s := by linarith
    have hless' : e + 7 < s := by exact_mod_cast hless
    have hbefore : e * MiB < d.usable := by
      have hmul : (e + 8) * MiB ≤ s * MiB := Nat.mul_le_mul_right _ (by omega)
      rw [← hsize, Nat.add_mul] at hmul
      omega
    exact_mod_cast hbefore
  · rw [hbegin, available, htotal, hlast, hsize]
    push_cast
    linarith

/-! ## Two tables -/

theorem sampleEnv_parted : Parted sampleEnv.shown := nearestMiB_parted

/-- A disk of 1 GiB, whose data partition starts at `start` MiB. -/
def gapDisk (start : ℕ) : Disk := { sampleDisk (start * MiB) with fs := none }

theorem gapDisk_listing {start : ℕ} (h : 200 ≤ start ∧ start ≤ 900) :
    Listing (gapDisk start) ⟨100 * MiB, 200 * MiB⟩ where
  listed := by
    show (sampleBase.map Prod.fst ++ [27]).Nodup
    decide
  before := rfl
  order := by
    intro p hp
    cases hp
    exact Nat.mul_le_mul_right _ h.1
  inside := by
    refine ⟨by show 200 * MiB ≤ 1024 * MiB; decide, ?_⟩
    intro p hp
    cases hp
    exact (Nat.mul_le_mul_right _ h.2).trans (by show 900 * MiB ≤ 1024 * MiB; decide)
  usable := Nat.sub_le _ _

theorem gapDisk_passes {start : ℕ} (h : 200 ≤ start ∧ start ≤ 900) :
    Passes sampleEnv (intText 760) (gapDisk start) := by
  obtain ⟨total, last, begins, hwhole⟩ :=
    (gapDisk_listing h).whole sampleEnv_parted (by show 100 * MiB < 200 * MiB; decide)
  have htotal : total = 1024 := by
    have hshown : num (sampleEnv.shown (1024 * MiB)) = 1024 := by decide +kernel
    have hnum := hwhole.total.num
    exact_mod_cast hnum.symm.trans hshown
  have hlast : last = 200 := by
    have hshown : num (sampleEnv.shown (200 * MiB - 1)) = 200 := by decide +kernel
    have hnum := hwhole.last.num
    exact_mod_cast hnum.symm.trans hshown
  have hmin : num (print (minsizeOf 0 4096)) = 8 := by decide +kernel
  refine hwhole.passes_iff.mpr ⟨?_, by decide, by omega⟩
  rw [getDataMinsize_eq, show minsizeNumber (gapDisk start) = minsizeOf 0 4096 from rfl, hmin]
  norm_num

/-- With no gap there is room for a data partition of 760 MiB. -/
theorem passes_room_iff_adjacent :
    Room (gapDisk 200) ⟨100 * MiB, 200 * MiB⟩ (plan sampleEnv (intText 760) (gapDisk 200)) := by
  have ht := @gapDisk_listing 200 (by decide)
  have hall := passes_room_iff sampleEnv_parted ht
  refine (hall.1 (by decide)).mpr ?_ 760 (gapDisk_passes (by decide))
  refine wholeRoom_of_adjacent (e := 200) (s := 1024) sampleEnv_parted ht (by decide) rfl rfl
    (by decide) ?_
  intro p hp
  cases hp
  rfl

/-- With a gap of 100 MiB the same size passes, and data would have to end 36 MiB
after the end of the disk. -/
theorem gap_leaves_no_room :
    Parted sampleEnv.shown ∧ Listing (gapDisk 300) ⟨100 * MiB, 200 * MiB⟩ ∧
      Passes sampleEnv (intText 760) (gapDisk 300) ∧
      (plan sampleEnv (intText 760) (gapDisk 300)).newend.byte (gapDisk 300) =
        (gapDisk 300).size + 36 * MiB ∧
      ¬ Room (gapDisk 300) ⟨100 * MiB, 200 * MiB⟩
        (plan sampleEnv (intText 760) (gapDisk 300)) := by
  have hend : (plan sampleEnv (intText 760) (gapDisk 300)).newend.byte (gapDisk 300) =
      (gapDisk 300).size + 36 * MiB := by decide +kernel
  refine ⟨sampleEnv_parted, gapDisk_listing (by decide), gapDisk_passes (by decide), hend, ?_⟩
  intro hroom
  obtain ⟨-, ⟨-, hinside⟩, -⟩ := hroom
  rw [hend] at hinside
  exact absurd hinside (by decide)

end Pisces.Repartition
