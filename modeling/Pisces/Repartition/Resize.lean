import Mathlib.Algebra.Order.Ring.Abs
import Mathlib.Data.Nat.Prime.Basic
import Pisces.Repartition.Listing

/-!
# Where the new data partition lies

The script removes the data partition and makes it again from what parted
showed: whole MiB, for positions of 100 MiB and more. The new partition starts
where the old one did exactly if the old one started at a whole MiB. And it
holds the filesystem except in one case: the size asked for is what parted shows
for the old partition, or more, so that nothing is shrunk, but the old partition
is a little larger than that, and the filesystem with it.
-/

namespace Pisces.Repartition

open Pisces.Lib Pisces.Lib.Awk Pisces.Lib.Script

variable {env : Env} {d d' : Disk} {newsize : Text}

/-! ## What a run makes -/

/-- The disk when the partitions are removed. -/
def Plan.shrunk (p : Plan) (d : Disk) : Disk :=
  if p.isShrinking then d.withBlocks fun _ => ⌊num (shrinkBlocks p.shrinkto d)⌋.toNat else d

/-- The data partition a plan makes, with the filesystem of that moment. -/
def Plan.makes (p : Plan) (d : Disk) : Part × Option Fs :=
  (⟨p.newbegin.byte d, p.newend.byte d⟩, (p.shrunk d).fs)

/-- Nothing has been made yet, or what the plan says. -/
def Planned (p : Plan) (d d' : Disk) : Prop := d'.made = none ∨ d'.made = some (p.makes d)

def Fails (env : Env) : Prop := ∃ e, env.fails e = true

theorem wp_require_works {e : Ext} {Q : Unit → Disk → Prop} {C : Stop → Disk → Prop}
    (hyes : Q () d) (hno : Fails env → C .exit d) : (require (!env.fails e)).wp Q C d := by
  refine wp_require (fun _ => hyes) fun hfails => hno ⟨e, ?_⟩
  rwa [Bool.not_eq_false'] at hfails

/-- Neither part of a resize of the filesystem changes what was made. -/
theorem resizeDatafs_spec (stage : Stage) (tosize : Option Text) :
    (resizeDatafs env stage tosize).wp
      (fun _ d' => d'.made = d.made ∧ d'.usable = d.usable ∧ d'.parts = d.parts ∧
        ∀ t, tosize = some t → d' = d.withBlocks fun _ => ⌊num (shrinkBlocks t d)⌋.toNat)
      (fun why d' => d'.made = d.made ∧ (why = .exit → Fails env)) d := by
  unfold resizeDatafs
  simp only [wp_bind]
  refine wp_require_works ?_ fun hf => ⟨rfl, fun _ => hf⟩
  refine wp_require_works ?_ fun hf => ⟨rfl, fun _ => hf⟩
  refine wp_require_works ?_ fun hf => ⟨rfl, fun _ => hf⟩
  cases tosize with
  | none =>
      refine ⟨⟨rfl, Stop.of_killed_eq_exit⟩, ?_⟩
      refine wp_require_works ⟨rfl, rfl, rfl, fun t ht => ?_⟩ fun hf => ⟨rfl, fun _ => hf⟩
      cases ht
  | some t =>
      refine ⟨⟨rfl, Stop.of_killed_eq_exit⟩, ?_⟩
      refine wp_require_works ⟨rfl, rfl, rfl, ?_⟩ fun hf => ⟨rfl, fun _ => hf⟩
      rintro _ ⟨⟩
      rfl

/-- The partition is gone, or it could not be removed. -/
theorem wp_removePart {n : ℕ} {Q : Unit → Disk → Prop} {C : Stop → Disk → Prop}
    (hkill : C .killed d) (hgone : Q () (d.rm n)) (hleft : Fails env → Q () d) :
    (removePart env n).wp Q C d := by
  unfold removePart
  split
  · next hfails => exact hleft ⟨_, hfails⟩
  · exact ⟨hkill, hgone⟩

/-- Neither data nor storage is there. -/
def Disk.Bare (d : Disk) : Prop := ∀ np ∈ d.parts, np.1 ≠ dataPartnum ∧ np.1 ≠ storagePartnum

theorem Disk.bare_rm (d : Disk) : ((d.rm storagePartnum).rm dataPartnum).Bare := by
  intro np hnp
  obtain ⟨hnp, hdata⟩ := List.mem_filter.mp hnp
  obtain ⟨-, hstorage⟩ := List.mem_filter.mp hnp
  exact ⟨of_decide_eq_true hdata, of_decide_eq_true hstorage⟩

theorem Disk.Bare.clear (h : d.Bare) (b e : Pos) : d.clear b e = true :=
  List.all_eq_true.mpr fun np hnp => decide_eq_true (.inl (h np hnp))

/-- After data, which ends where storage is to begin. -/
theorem Disk.Bare.clear_storage (h : d.Bare) (b e : Pos) :
    (d.mkpart dataPartnum b e).clear e .full = true := by
  refine List.all_eq_true.mpr fun np hnp => decide_eq_true ?_
  rcases List.mem_append.mp hnp with hnp | hnp
  · exact .inl (h np hnp)
  · rw [List.mem_singleton.mp hnp]
    exact .inr (.inl (by cases e <;> exact le_rfl))

theorem makeStorage_spec {b : Pos} (hclear : Fails env ∨ d.clear b .full = true) :
    (makeStorage env b).wp (fun _ d' => d'.made = d.made)
      (fun why d' => d'.made = d.made ∧ (why = .exit → Fails env)) d := by
  unfold makeStorage
  simp only [wp_bind, wp_op, wp_get]
  refine wp_require_works (wp_require (fun _ => ?_) fun hover => ⟨rfl, fun _ => ?_⟩) fun hf =>
    ⟨rfl, fun _ => hf⟩
  · refine ⟨⟨rfl, Stop.of_killed_eq_exit⟩, ?_⟩
    refine wp_require_works ?_ fun hf => ⟨rfl, fun _ => hf⟩
    exact wp_require_works ⟨⟨rfl, Stop.of_killed_eq_exit⟩, rfl⟩ fun hf => ⟨rfl, fun _ => hf⟩
  · exact hclear.resolve_right fun h => Bool.false_ne_true (hover.symm.trans h)

theorem Pos.byte_congr (x : Pos) (h : d'.usable = d.usable) : x.byte d' = x.byte d := by
  cases x with
  | mib t => rfl
  | full => exact h

/-- From the new data partition on, with `d₁` the disk before the removals. -/
theorem makeAll_made {p : Plan} {d₁ : Disk} (hd₁ : d₁ = p.shrunk d) (hmade : d'.made = none)
    (husable : d'.usable = d.usable) (hfs : d'.fs = d₁.fs) (hbare : Fails env ∨ d'.Bare) :
    (makeData env p.newbegin p.newend >>= fun _ => resizeDatafs env .fill none >>= fun _ =>
      if p.newend = .full then pure () else makeStorage env p.newend).wp
      (fun _ d'' => d''.made = some (p.makes d))
      (fun why d'' => Planned p d d'' ∧ (why = .exit → Fails env)) d' := by
  have hnew : ((⟨p.newbegin.byte d', p.newend.byte d'⟩, d'.fs) : Part × Option Fs) =
      p.makes d := by
    rw [Plan.makes, hfs, hd₁, p.newbegin.byte_congr husable, p.newend.byte_congr husable]
  simp only [wp_bind, wp_op, makeData, wp_get]
  refine wp_require_works (wp_require (fun _ => ?_) fun hover => ⟨.inl hmade, fun _ => ?_⟩)
    fun hf => ⟨.inl hmade, fun _ => hf⟩
  · refine ⟨⟨.inl hmade, Stop.of_killed_eq_exit⟩, ?_⟩
    refine wp_mono (resizeDatafs_spec .fill none) ?_ ?_
    · rintro _ d₂ ⟨hmade₂, husable₂, hparts₂, -⟩
      have hd₂ : d₂.made = some (p.makes d) := hmade₂.trans (congrArg some hnew)
      split
      · exact hd₂
      · have hclear : Fails env ∨ d₂.clear p.newend .full = true := by
          refine hbare.imp_right fun hbare => ?_
          have hafter := hbare.clear_storage p.newbegin p.newend
          have hend : p.newend.byte d₂ = p.newend.byte d' := p.newend.byte_congr husable₂
          have hfull : Pos.full.byte d₂ = Pos.full.byte d' := Pos.full.byte_congr husable₂
          rw [Disk.clear] at hafter ⊢
          rw [hparts₂, hend, hfull]
          exact hafter
        refine wp_mono (makeStorage_spec hclear) ?_ ?_
        · intro _ d₃ hd₃
          exact hd₃.trans hd₂
        · rintro why d₃ ⟨hd₃, hexit⟩
          exact ⟨.inr (hd₃.trans hd₂), hexit⟩
    · rintro why d₂ ⟨hmade₂, hexit⟩
      exact ⟨.inr (hmade₂.trans (congrArg some hnew)), hexit⟩
  · refine hbare.resolve_right fun hbare => ?_
    exact Bool.false_ne_true (hover.symm.trans (hbare.clear p.newbegin p.newend))

/-- From the removal of the partitions on. -/
theorem carryOut_made {p : Plan} (hd' : d' = p.shrunk d) (hmade : d'.made = none) :
    (removePart env storagePartnum >>= fun _ => removePart env dataPartnum >>= fun _ =>
      makeData env p.newbegin p.newend >>= fun _ => resizeDatafs env .fill none >>= fun _ =>
      if p.newend = .full then pure () else makeStorage env p.newend).wp
      (fun _ d'' => d''.made = some (p.makes d))
      (fun why d'' => Planned p d d'' ∧ (why = .exit → Fails env)) d' := by
  have husable : d'.usable = d.usable := by
    rw [hd', Plan.shrunk]
    split <;> rfl
  have hkill : ∀ {d₁ : Disk}, d₁.made = none →
      Planned p d d₁ ∧ (Stop.killed = .exit → Fails env) :=
    fun h => ⟨.inl h, Stop.of_killed_eq_exit⟩
  rw [wp_bind]
  refine wp_removePart (hkill hmade) ?_ fun hf => ?_
  · rw [wp_bind]
    refine wp_removePart (hkill hmade) ?_ fun hf => ?_
    · exact makeAll_made hd' hmade husable rfl (.inr d'.bare_rm)
    · exact makeAll_made hd' hmade husable rfl (.inl hf)
  · rw [wp_bind]
    refine wp_removePart (hkill hmade) ?_ fun _ => ?_
    · exact makeAll_made hd' hmade husable rfl (.inl hf)
    · exact makeAll_made hd' hmade husable rfl (.inl hf)

theorem carryOut_spec {p : Plan} (hmade : d.made = none) :
    (carryOut env p).wp (fun _ d' => d'.made = some (p.makes d))
      (fun why d' => Planned p d d' ∧ (why = .exit → Fails env)) d := by
  rw [carryOut]
  by_cases hshrink : p.isShrinking = true
  · rw [if_pos hshrink, wp_bind]
    refine wp_mono (resizeDatafs_spec .shrink (some _)) ?_ ?_
    · intro _ d₁ hresized
      obtain ⟨hmade₁, -, -, hd₁⟩ := hresized
      have hshrunk : d₁ = p.shrunk d := by
        rw [Plan.shrunk, if_pos hshrink]
        exact hd₁ _ rfl
      exact carryOut_made hshrunk (hmade₁.trans hmade)
    · intro why d₁ hstop
      exact ⟨.inl (hstop.1.trans hmade), hstop.2⟩
  · rw [if_neg hshrink]
    have hshrunk : d = p.shrunk d := by rw [Plan.shrunk, if_neg hshrink]
    exact carryOut_made hshrunk hmade

/-- What makes the script give up before it has touched anything. -/
def Declined (env : Env) (newsize : Text) (d : Disk) : Prop :=
  getDatastorageSize env d = [] ∨ (d.part storagePartnum).isSome && d.storageFiles ∨
    tooSmall newsize (getDataMinsize d) ∨ tooLarge newsize (getDatastorageSize env d)

theorem recoveryResize_made (hmade : d.made = none) :
    (recoveryResize env newsize).wp
      (fun _ d' => ¬ Declined env newsize d ∧ d'.made = some ((plan env newsize d).makes d))
      (fun why d' => (d'.made = none ∨
          ¬ Declined env newsize d ∧ d'.made = some ((plan env newsize d).makes d)) ∧
        (why = .exit → Fails env ∨ Declined env newsize d)) d := by
  unfold recoveryResize
  simp only [wp_bind, wp_get]
  refine wp_require (fun hsize => wp_require (fun hfiles => wp_require_works ?_ ?_) ?_) ?_
  · refine wp_require (fun hsmall => wp_require (fun hlarge => ?_) ?_) ?_
    · have htakes : ¬ Declined env newsize d := by
        rw [Bool.not_eq_true'] at hfiles hsmall hlarge
        rintro (hno | hno | hno | hno)
        · exact of_decide_eq_true hsize hno
        · exact Bool.false_ne_true (hfiles.symm.trans hno)
        · exact Bool.false_ne_true (hsmall.symm.trans hno)
        · exact Bool.false_ne_true (hlarge.symm.trans hno)
      -- the plan is not looked into here
      generalize plan env newsize d = p
      refine wp_mono (carryOut_spec hmade) (fun _ _ h => ⟨htakes, h⟩) ?_
      exact fun _ _ h => ⟨h.1.imp_right fun h => ⟨htakes, h⟩, fun hexit => .inl (h.2 hexit)⟩
    · intro hlarge
      rw [Bool.not_eq_false'] at hlarge
      exact ⟨.inl hmade, fun _ => .inr (.inr (.inr (.inr hlarge)))⟩
    · intro hsmall
      rw [Bool.not_eq_false'] at hsmall
      exact ⟨.inl hmade, fun _ => .inr (.inr (.inr (.inl hsmall)))⟩
  · exact fun hf => ⟨.inl hmade, fun _ => .inl hf⟩
  · intro hfiles
    rw [Bool.not_eq_false'] at hfiles
    exact ⟨.inl hmade, fun _ => .inr (.inr (.inl hfiles))⟩
  · intro hempty
    rw [decide_eq_false_iff_not, not_not] at hempty
    exact ⟨.inl hmade, fun _ => .inr (.inl hempty)⟩

/-! ## The plan in whole MiB -/

/-- A table with a data partition `p` after partition 26, and the filesystem
`f` in it. -/
structure Table (d : Disk) (prev p : Part) (f : Fs) : Prop where
  listed : d.Listed
  before : d.part (dataPartnum - 1) = some prev
  data : d.part dataPartnum = some p
  order : prev.finish ≤ p.start
  bounds : p.start ≤ p.finish ∧ p.finish ≤ d.usable ∧ d.usable ≤ d.size
  fs : d.fs = some f
  fits : f.bytes ≤ p.size
  blocksize : f.blocksize ∣ MiB
  made : d.made = none

variable {prev p : Part} {f : Fs} {n : ℤ}

theorem Table.addressed (ht : Table d prev p f) : p.start < 2 ^ 72 ∧ p.size < 2 ^ 72 := by
  have hbounds := ht.bounds
  have haddressed := d.addressed
  have hsize : p.size = p.finish - p.start := rfl
  omega

/-- Less than 64 MiB would be left for storage. -/
def NoStorage (n ds : ℤ) : Prop := ds - n < 64

instance (n ds : ℤ) : Decidable (NoStorage n ds) := inferInstanceAs (Decidable (ds - n < 64))

/-- A size, what there is, and where data begins, in MiB: so small that sums of two
of them are exact. -/
structure Sizes (n ds b : ℤ) : Prop where
  size : 8 ≤ n ∧ n ≤ ds
  available : ds ≤ 2 ^ 52
  begins : 0 ≤ b ∧ b ≤ 2 ^ 52

theorem storageNewsize_eq_zero {ds b : ℤ} (h : Sizes n ds b) :
    storageNewsize (intText n) (intText ds) = ['0'] ↔ NoStorage n ds := by
  obtain ⟨⟨hn, hle⟩, hds, -⟩ := h
  rw [storageNewsize_zero (word_intText n).padded (isNumber_intText ds),
    num_intText (abs_le.mpr ⟨by omega, by omega⟩), num_intText (abs_le.mpr ⟨by omega, by omega⟩),
    sub_intCast (abs_le.mpr ⟨by omega, by omega⟩), NoStorage]
  exact_mod_cast Iff.rfl

/-- The plan for a data size of `n` MiB, when data and storage have `ds` MiB and
data begins at `b` MiB. -/
def wholePlan (env : Env) (n ds b : ℤ) (p : Part) : Plan :=
  let m := if NoStorage n ds then ds else n
  { isShrinking := decide ((m : ℚ) < num (env.shown p.size))
    shrinkto := intText (m - 8)
    newbegin := .mib (intText b)
    newend := if NoStorage n ds then .full else .mib (intText (b + m)) }

theorem plan_eq (hparted : Parted env.shown) (ht : Table d prev p f) {ds b : ℤ}
    (h : Sizes n ds b) (hds : getDatastorageSize env d = intText ds)
    (hb : dataNewbegin env d = intText b) :
    plan env (intText n) d = wholePlan env n ds b p := by
  have hword := hparted.word p.size
  have hm : (if NoStorage n ds then intText ds else intText n) =
      intText (if NoStorage n ds then ds else n) := by
    split <;> rfl
  have hbounds : 8 ≤ (if NoStorage n ds then ds else n) ∧
      (if NoStorage n ds then ds else n) ≤ 2 ^ 52 := by
    obtain ⟨⟨hn, hle⟩, hds, -⟩ := h
    split <;> omega
  unfold plan wholePlan
  simp only [hds, hb, getDataSize_eq ht.listed ht.data hword, storageNewsize_eq_zero h, hm,
    exits_pair (word_intText _).padded hword,
    prints_pair (word_intText _).padded (word_intText _)]
  generalize (if NoStorage n ds then ds else n) = m at hbounds
  obtain ⟨hmlow, hmhigh⟩ := hbounds
  obtain ⟨-, -, hblow, hbhigh⟩ := h
  have hnum : num (intText m) = m := num_intText (abs_le.mpr ⟨by omega, by omega⟩)
  have hshrink : lt (field [intText m, env.shown p.size] 1)
      (field [intText m, env.shown p.size] 2) = decide ((m : ℚ) < num (env.shown p.size)) := by
    show lt (intText m) (env.shown p.size) = _
    rw [lt_of_numeric (looksNumeric_intText m) (hparted.numeric _), hnum]
  have hto : prints (fun fs => sub (num (field fs 1)) (num (field fs 2)))
      (echo [intText m, natText shrinkReserveSize]) = intText (m - 8) := by
    rw [show natText shrinkReserveSize = intText 8 from (intText_natCast 8).symm,
      prints_pair (word_intText m).padded (word_intText 8)]
    show print (sub (num (intText m)) (num (intText 8))) = _
    rw [hnum, num_intText (by decide), sub_intCast (abs_le.mpr ⟨by omega, by omega⟩), print_intCast]
  have hend : print (add (num (field [intText b, intText m] 1))
      (num (field [intText b, intText m] 2))) = intText (b + m) := by
    show print (add (num (intText b)) (num (intText m))) = _
    rw [hnum, num_intText (abs_le.mpr ⟨by omega, by omega⟩),
      add_intCast (abs_le.mpr ⟨by omega, by omega⟩), print_intCast]
  rw [hshrink, hto, hend]

theorem byte_intText (d : Disk) {k : ℤ} (hk : |k| ≤ 2 ^ 53) :
    (Pos.mib (intText k)).byte d = (k * MiB).toNat := by
  rw [Pos.byte, num_intText hk]
  congr 1
  exact_mod_cast Int.floor_intCast (R := ℚ) (k * MiB)

/-- So many MiB are a number of blocks without rounding, for blocks of a power of
two. -/
theorem shrinkBlocks_eq {x : ℚ} {b : ℤ} {j : ℕ}
    (hblocksize : getDataBlocksize d = natText (2 ^ j)) (hj : j ≤ 20) {t : Text} (ht : Word t)
    (hx : num t = x) (hb : x * MiB = b * 2 ^ j) :
    shrinkBlocks t d = intText b ∧ num (intText b) = b := by
  have hdouble : IsDouble x := hx ▸ isDouble_num t
  have hmul : ∀ {y : ℚ}, IsDouble y → IsDouble (y * 1024) := by
    intro y hy
    have hscaled := hy.mul_zpow 10
    norm_num at hscaled
    exact hscaled
  have hsize : num (natText (2 ^ j)) = 2 ^ j := by
    rw [num_natText (by
      calc 2 ^ j ≤ 2 ^ 20 := Nat.pow_le_pow_right (by decide) hj
        _ ≤ 2 ^ 53 := by decide)]
    push_cast
    rfl
  have hquot : x * 1024 * 1024 / 2 ^ j = b := by
    rw [div_eq_iff (by positivity), ← hb]
    norm_num [MiB]
    ring
  have hblocks : IsDouble b := by
    have hscaled := hdouble.mul_zpow (20 - j)
    have hmib : (2 : ℚ) ^ (20 : ℤ) = 1024 * 1024 := by norm_num
    rwa [zpow_sub₀ (by norm_num), zpow_natCast, ← mul_div_assoc, hmib, ← mul_assoc, hquot]
      at hscaled
  constructor
  · rw [shrinkBlocks, hblocksize, prints_pair ht.padded (word_natText _)]
    show print (div (mul (mul (num t) 1024) 1024) (num (natText (2 ^ j)))) = _
    have hfirst : mul x 1024 = x * 1024 := double_eq (hmul hdouble)
    have hsecond : mul (x * 1024) 1024 = x * 1024 * 1024 := double_eq (hmul (hmul hdouble))
    rw [hx, hsize, hfirst, hsecond, div, hquot, double_eq hblocks, print_intCast]
  · rw [num_intText_eq_double, double_eq hblocks]

/-- resize2fs is given a whole number of blocks: those of `m` MiB. -/
theorem shrunk_bytes (ht : Table d prev p f) {m : ℤ} (hm : |m| ≤ 2 ^ 53) :
    ⌊num (shrinkBlocks (intText m) d)⌋.toNat * f.blocksize = m.toNat * MiB := by
  obtain ⟨j, hj, hblocksize⟩ := (Nat.dvd_prime_pow Nat.prime_two).mp ht.blocksize
  have hsize := getDataBlocksize_eq ht.fs hblocksize
  have hsplit : (MiB : ℤ) = 2 ^ (20 - j) * 2 ^ j := by
    rw [← pow_add, Nat.sub_add_cancel hj]
    rfl
  obtain ⟨hblocks, hnum⟩ := shrinkBlocks_eq (b := m * 2 ^ (20 - j)) hsize hj (word_intText m)
    (num_intText hm) (by
      rw [show (MiB : ℚ) = ((MiB : ℤ) : ℚ) from (Int.cast_natCast _).symm, hsplit]
      push_cast
      ring)
  rw [hblocks, hnum, Int.floor_intCast, hblocksize]
  have hmib : MiB = 2 ^ (20 - j) * 2 ^ j := by exact_mod_cast hsplit
  rcases le_or_gt 0 m with hm | hm
  · lift m to ℕ using hm
    rw [hmib, Int.toNat_natCast, ← mul_assoc]
    exact_mod_cast congrArg (· * 2 ^ j) (Int.toNat_natCast (m * 2 ^ (20 - j)))
  · have hneg : m * 2 ^ (20 - j) ≤ 0 :=
      mul_nonpos_of_nonpos_of_nonneg hm.le (by positivity)
    rw [Int.toNat_of_nonpos hneg, Int.toNat_of_nonpos hm.le, zero_mul, zero_mul]

/-- The filesystem when the partitions are removed. -/
theorem Table.shrunk_fs (ht : Table d prev p f) {q : Plan} {m : ℤ} (hm : |m - 8| ≤ 2 ^ 53)
    (hq : q.shrinkto = intText (m - 8)) :
    ∃ g, (q.shrunk d).fs = some g ∧
      g.bytes = if q.isShrinking then (m - 8).toNat * MiB else f.bytes := by
  unfold Plan.shrunk
  split
  · rw [hq, Disk.withBlocks, ht.fs]
    exact ⟨_, rfl, shrunk_bytes ht hm⟩
  · exact ⟨f, ht.fs, rfl⟩

/-! ## The new partition -/

/-- The partition is made where data was, and holds the filesystem. -/
def KeepsData (p : Part) (made : Part × Option Fs) : Prop :=
  made.1.start = p.start ∧ ∃ g, made.2 = some g ∧ g.bytes ≤ made.1.size

/-- Nothing is shrunk, since the size asked for is at least the one shown, and
still it is less than the filesystem has; and storage begins where it ends. -/
def CutsOff (env : Env) (d : Disk) (prev p : Part) (f : Fs) (n : ℤ) : Prop :=
  64 ≤ num (env.shown d.size) - num (env.shown (prev.finish - 1)) - n ∧
    num (env.shown p.size) ≤ n ∧ n * MiB < f.bytes

/-- The shown start is the start exactly if that is a whole number of MiB. -/
theorem start_iff {b : ℤ} {s : ℕ} (hclose : |(b : ℚ) * MiB - s| ≤ MiB / 2) (hs : 100 * MiB ≤ s) :
    (b * MiB).toNat = s ↔ MiB ∣ s := by
  obtain ⟨hlow, hhigh⟩ := close_int hclose
  simp only [MiB] at *
  omega

/-- How large the filesystem is when the partition is made: after a shrink to
the size `m` of the plan it has the reserve less than that. -/
def bytesLeft (f : Fs) (m : ℤ) (shown : ℚ) : ℕ :=
  if (m : ℚ) < shown then (m - 8).toNat * MiB else f.bytes

/-- A filesystem is shrunk only to less than it could have. -/
theorem bytesLeft_le {z : ℚ} {size : ℕ} (hclose : |z * MiB - size| ≤ MiB / 2)
    (hfits : f.bytes ≤ size) (m : ℤ) : bytesLeft f m z ≤ size := by
  unfold bytesLeft
  split
  · next hlt =>
      have hpos : (0 : ℚ) < MiB := by norm_num [MiB]
      have hmul := mul_lt_mul_of_pos_right hlt hpos
      have hhigh := (abs_le.mp hclose).2
      have hm : 2 * (m * MiB) < 2 * (size : ℤ) + MiB := by
        have h : 2 * ((m : ℚ) * MiB) < 2 * size + MiB := by linarith
        exact_mod_cast h
      simp only [MiB] at hm ⊢
      omega
  · exact hfits

theorem bytesLeft_le_iff {z : ℚ} {size : ℕ} (hclose : |z * MiB - size| ≤ MiB / 2) (n : ℤ) :
    bytesLeft f n z ≤ n.toNat * MiB ↔ ¬ (z ≤ n ∧ n * MiB < f.bytes) := by
  unfold bytesLeft
  split
  · next hlt =>
      refine iff_of_true ?_ fun h => absurd h.1 (not_le.mpr hlt)
      exact Nat.mul_le_mul_right _ (Int.toNat_le_toNat (by omega))
  · next hge =>
      have hz := not_lt.mp hge
      -- a partition does not have a negative size, and so the size asked for is not negative
      have hn : -1 < n := by
        have hlow := (abs_le.mp hclose).1
        have hsize : (0 : ℚ) ≤ size := Nat.cast_nonneg _
        have hpos : (0 : ℚ) < MiB := by norm_num [MiB]
        have hmul := mul_le_mul_of_nonneg_right hz hpos.le
        have h : (-1 : ℚ) * MiB < n * MiB := by linarith
        have h' := lt_of_mul_lt_mul_right h hpos.le
        exact_mod_cast h'
      simp only [hz, true_and, not_lt]
      simp only [MiB]
      omega

/-- The new partition from its numbers. -/
theorem wholePlan_makes (ht : Table d prev p f) {ds b : ℤ} (h : Sizes n ds b) :
    ∃ g : Fs, (wholePlan env n ds b p).makes d =
        (⟨(b * MiB).toNat, if NoStorage n ds then d.usable else ((b + n) * MiB).toNat⟩, some g) ∧
      g.bytes = bytesLeft f (if NoStorage n ds then ds else n) (num (env.shown p.size)) := by
  obtain ⟨⟨hn, hle⟩, hds, hblow, hbhigh⟩ := h
  have hm : |(if NoStorage n ds then ds else n) - 8| ≤ 2 ^ 53 := by
    split <;> exact abs_le.mpr ⟨by omega, by omega⟩
  obtain ⟨g, hg, hbytes⟩ := ht.shrunk_fs (q := wholePlan env n ds b p) hm rfl
  refine ⟨g, ?_, ?_⟩
  · have hend : (wholePlan env n ds b p).newend.byte d =
        if NoStorage n ds then d.usable else ((b + n) * MiB).toNat := by
      unfold wholePlan
      by_cases hno : NoStorage n ds
      · simp only [if_pos hno, Pos.byte]
      · simp only [if_neg hno, byte_intText d (abs_le.mpr ⟨by omega, by omega⟩ : |b + n| ≤ 2 ^ 53)]
    rw [Plan.makes, hg, hend]
    exact congrArg (fun x : ℕ => ((⟨x, _⟩ : Part), some g))
      (byte_intText d (abs_le.mpr ⟨by omega, by omega⟩))
  · rw [hbytes, bytesLeft]
    exact if_congr decide_eq_true_iff rfl rfl

/-- The new partition starts in place exactly if the old one started at a whole
MiB, and then its end is far enough unless it cuts the filesystem off. -/
theorem wholePlan_keepsData (hparted : Parted env.shown) (ht : Table d prev p f) {ds b : ℤ}
    (h : Sizes n ds b) (hds : num (env.shown d.size) - num (env.shown (prev.finish - 1)) = ds)
    (hb : num (env.shown p.start) = b) (hstart : 100 * MiB ≤ p.start) :
    KeepsData p ((wholePlan env n ds b p).makes d) ↔
      MiB ∣ p.start ∧ ¬ CutsOff env d prev p f n := by
  obtain ⟨hstartBytes, hsizeBytes⟩ := ht.addressed
  have hclose := hparted.near hstartBytes
  rw [hb] at hclose
  have hiff := start_iff hclose hstart
  have hcut : CutsOff env d prev p f n ↔
      ¬ NoStorage n ds ∧ num (env.shown p.size) ≤ n ∧ n * MiB < f.bytes := by
    unfold CutsOff NoStorage
    rw [hds, not_lt]
    exact and_congr_left fun _ => by exact_mod_cast Iff.rfl
  obtain ⟨g, hmakes, hbytes⟩ : ∃ g : Fs, (wholePlan env n ds b p).makes d = _ ∧ g.bytes = _ :=
    wholePlan_makes ht h
  rw [KeepsData, hmakes, hcut]
  refine (and_congr_left' hiff).trans (and_congr_right fun hdvd => ?_)
  have hb' := hiff.mpr hdvd
  simp only [Option.some.injEq, exists_eq_left']
  rw [hbytes]
  by_cases hno : NoStorage n ds
  · -- to the end of the disk, and so at least as far as the old one
    rw [if_pos hno, if_pos hno]
    refine iff_of_true ?_ fun h => h.1 hno
    have hleft := bytesLeft_le (hparted.near hsizeBytes) ht.fits ds
    have hend := ht.bounds.2.1
    show _ ≤ d.usable - (b * MiB).toNat
    have hsize : p.size = p.finish - p.start := rfl
    omega
  · have hsize : ((b + n) * MiB).toNat - (b * MiB).toNat = n.toNat * MiB := by
      simp only [MiB] at *
      omega
    rw [if_neg hno, if_neg hno]
    show _ ≤ ((b + n) * MiB).toNat - (b * MiB).toNat ↔ _
    rw [hsize, bytesLeft_le_iff (hparted.near hsizeBytes) n]
    exact not_congr ⟨fun h => ⟨hno, h⟩, fun h => h.2⟩

/-! ## The theorem -/

/-- The script does not give up on this disk and this size, and nothing fails. -/
structure Accepts (env : Env) (newsize : Text) (d : Disk) : Prop where
  takes : ¬ Declined env newsize d
  works : ¬ Fails env

/-- A size the script accepts is carried out if nothing fails; and wherever a
run ends that has made the data partition again, the partition is where it was
and holds the filesystem of that moment exactly if it was at a whole MiB and the
filesystem is not cut off. -/
theorem resize_keeps_data_iff (hparted : Parted env.shown) (ht : Table d prev p f)
    (hprev : 100 * MiB < prev.finish) :
    (Accepts env (intText n) d →
      ∃ made, ((recoveryResize env (intText n)).run none d).state.made = some made) ∧
    ∀ budget made, ((recoveryResize env (intText n)).run budget d).state.made = some made →
      (KeepsData p made ↔ MiB ∣ p.start ∧ ¬ CutsOff env d prev p f n) := by
  have hspec := @recoveryResize_made env d (intText n) ht.made
  constructor
  · rintro ⟨htakes, hworks⟩
    have hends := wp_mono hspec (fun _ _ hend => hend) fun _ _ hstop => hstop.2
    obtain ⟨_, d', hdone, hmade⟩ := run_none_done hends (not_or.mpr ⟨hworks, htakes⟩)
    rw [hdone]
    exact ⟨_, hmade.2⟩
  · intro budget made hmade
    have horder := ht.order
    have hbounds := ht.bounds
    have haddressed := d.addressed
    have hstart : 100 * MiB ≤ p.start := by omega
    have hsize : 100 * MiB ≤ d.size := by omega
    obtain ⟨total, htotal⟩ := hparted.shownWhole hsize haddressed
    obtain ⟨last, hlast⟩ := hparted.shownWhole (b := prev.finish - 1) (by omega) (by omega)
    obtain ⟨b, hb⟩ := hparted.shownWhole hstart (by omega)
    obtain ⟨htotalBound, htotalBound'⟩ := htotal.bounds
    obtain ⟨hlastBound, hlastBound'⟩ := hlast.bounds
    obtain ⟨hbBound, hbBound'⟩ := hb.bounds
    have hds : getDatastorageSize env d = intText (total - last) := by
      rw [getDatastorageSize_eq ht.listed ht.before (hparted.isTrue hsize haddressed), htotal.num,
        hlast.num, sub_intCast (abs_le.mpr ⟨by omega, by omega⟩), print_intCast]
    have hbegin : dataNewbegin env d = intText b := by
      rw [dataNewbegin_eq ht.listed ht.before ht.data (hparted.isTrue hstart (by omega)), hb.text]
    obtain ⟨htakes, hplanned⟩ : ¬ Declined env (intText n) d ∧
        made = (plan env (intText n) d).makes d := by
      rcases (run_meets hspec budget).state (fun _ _ hend => .inr hend) (fun _ _ hstop => hstop.1)
        with hnone | ⟨htakes, hsome⟩
      · exact absurd (hmade.symm.trans hnone) (Option.some_ne_none made)
      · exact ⟨htakes, Option.some.inj (hmade.symm.trans hsome)⟩
    have hsizes : Sizes n (total - last) b := by
      rw [Declined, hds] at htakes
      simp only [not_or, Bool.not_eq_true] at htakes
      refine ⟨⟨eight_le htakes.2.2.1, ?_⟩, by omega, by omega, by omega⟩
      refine le_of_notLarge (isNumber_intText _) ?_ ?_ htakes.2.2.2
      · exact num_intText (abs_le.mpr ⟨by omega, by omega⟩)
      · exact abs_lt.mpr ⟨by omega, by omega⟩
    rw [hplanned, plan_eq hparted ht hsizes hds hbegin]
    refine wholePlan_keepsData hparted ht hsizes ?_ hb.num hstart
    rw [htotal.num, hlast.num, Int.cast_sub]

/-! ## Two disks -/

/-- What parted shows for 100 MiB and more. -/
def nearestMiB (b : ℕ) : Text := natText ((b + MiB / 2) / MiB)

theorem nearestMiB_parted : Parted nearestMiB := by
  have htext : ∀ b, nearestMiB b = intText ((b + MiB / 2) / MiB : ℕ) :=
    fun b => (intText_natCast _).symm
  have hclose : ∀ b : ℕ, |((((b + MiB / 2) / MiB : ℕ) : ℤ) : ℚ) * MiB - b| ≤ MiB / 2 := by
    intro b
    have hlow : 2 * b ≤ 2 * ((b + MiB / 2) / MiB * MiB) + MiB := by
      simp only [MiB]
      omega
    have hhigh : 2 * ((b + MiB / 2) / MiB * MiB) ≤ 2 * b + MiB := by
      simp only [MiB]
      omega
    have hlow' : 2 * (b : ℚ) ≤ 2 * (((b + MiB / 2) / MiB : ℕ) * MiB) + MiB := by exact_mod_cast hlow
    have hhigh' : 2 * ((((b + MiB / 2) / MiB : ℕ) : ℚ) * MiB) ≤ 2 * b + MiB := by
      exact_mod_cast hhigh
    rw [Int.cast_natCast, abs_le]
    constructor <;> linarith
  refine ⟨fun b => ?_, fun b => ?_, fun b hb => ?_, fun b _ => ⟨_, htext b, hclose b⟩⟩
  · rw [htext]
    exact word_intText _
  · rw [htext]
    exact looksNumeric_intText _
  · rw [htext, num_intText]
    · exact hclose b
    · simp only [MiB] at hb ⊢
      exact abs_le.mpr ⟨by omega, by omega⟩

def sampleEnv : Env := { shown := nearestMiB, fails := fun _ => false }

def sampleFs (start : ℕ) : Fs :=
  { blocks := (900 * MiB - start) / 4096, blocksize := 4096, minblocks := 1000 }

/-- Small partitions, and the last of them up to 200 MiB. -/
def sampleBase : List (ℕ × Part) :=
  (List.range' 1 25).map (fun n => (n, ⟨n * MiB, (n + 1) * MiB⟩)) ++
    [(26, ⟨100 * MiB, 200 * MiB⟩)]

/-- A disk of 1 GiB, with a data partition from `start` to 900 MiB that is full
of its filesystem. -/
def sampleDisk (start : ℕ) : Disk where
  size := 1024 * MiB
  addressed := by decide
  usable := 1024 * MiB - 16896
  parts := sampleBase ++ [(27, ⟨start, 900 * MiB⟩)]
  fs := some (sampleFs start)
  storageFiles := false
  made := none

theorem sampleDisk_table {start : ℕ} (hlow : 200 * MiB ≤ start) (hhigh : start ≤ 900 * MiB) :
    Table (sampleDisk start) ⟨100 * MiB, 200 * MiB⟩ ⟨start, 900 * MiB⟩ (sampleFs start) where
  listed := by
    show (sampleBase.map Prod.fst ++ [27]).Nodup
    decide
  before := rfl
  data := rfl
  order := hlow
  bounds := ⟨hhigh, by show 900 * MiB ≤ 1024 * MiB - 16896; decide, Nat.sub_le _ _⟩
  fs := rfl
  fits := Nat.div_mul_le_self _ _
  blocksize := by
    show 4096 ∣ MiB
    decide
  made := rfl

/-- A data partition at 200 MiB is shrunk to 300 MiB. -/
theorem resize_keeps_data_iff_shrink :
    ∃ made,
      ((recoveryResize sampleEnv (intText 300)).run none (sampleDisk (200 * MiB))).state.made =
        some made ∧ KeepsData ⟨200 * MiB, 900 * MiB⟩ made := by
  have hall := @resize_keeps_data_iff sampleEnv _ _ _ _ 300 nearestMiB_parted
    (@sampleDisk_table (200 * MiB) le_rfl (by decide)) (by decide)
  have haccepts : Accepts sampleEnv (intText 300) (sampleDisk (200 * MiB)) := by
    refine ⟨?_, fun ⟨_, hf⟩ => Bool.false_ne_true hf⟩
    rintro (hno | hno | hno | hno)
    · exact absurd hno (by decide +kernel)
    · exact absurd hno (by decide)
    · exact absurd hno (by decide +kernel)
    · exact absurd hno (by decide +kernel)
  obtain ⟨made, hmade⟩ := hall.1 haccepts
  refine ⟨made, hmade, (hall.2 none made hmade).mpr ⟨⟨200, Nat.mul_comm _ _⟩, ?_⟩⟩
  rintro ⟨-, hshown, -⟩
  have hseven : num (nearestMiB (700 * MiB)) = 700 := by decide +kernel
  change num (nearestMiB (700 * MiB)) ≤ ((300 : ℤ) : ℚ) at hshown
  rw [hseven] at hshown
  exact absurd hshown (by norm_num)

/-- A data partition that starts 100 KiB after that is made again at 200 MiB. -/
theorem unaligned_start_moves :
    Parted sampleEnv.shown ∧
    Table (sampleDisk (200 * MiB + 102400)) ⟨100 * MiB, 200 * MiB⟩
      ⟨200 * MiB + 102400, 900 * MiB⟩ (sampleFs (200 * MiB + 102400)) ∧
    ∃ made, ((recoveryResize sampleEnv (intText 300)).run none
        (sampleDisk (200 * MiB + 102400))).state.made = some made ∧
      made.1.start = 200 * MiB ∧ ¬ KeepsData ⟨200 * MiB + 102400, 900 * MiB⟩ made := by
  refine ⟨nearestMiB_parted, sampleDisk_table (Nat.le_add_right _ _) (by decide),
    (⟨200 * MiB, 500 * MiB⟩, some ⟨74752, 4096, 1000⟩), by decide +kernel, rfl, ?_⟩
  rintro ⟨hstart, -⟩
  exact absurd hstart (by decide)

end Pisces.Repartition
