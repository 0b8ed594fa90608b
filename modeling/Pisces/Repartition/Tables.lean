import Pisces.Lib.Runs
import Pisces.Repartition.Room

/-!
# The tables that resizes lead to

A resize takes two partitions away before it makes them again, and it can be
killed in between, or parted and resize2fs can fail. What it knows of the old
table when it is run again is what is left of it. On a disk of whole MiB, where
data starts at a whole MiB, right where partition 26 ends, that is enough: the
end of partition 26 says where data was.

So no run of resizes gets the table into disorder. What lies in front of data is
never touched, and data is where it was or, after a kill, missing until the next
resize, which puts it back. Only when parted fails to remove a partition, which
the script does not look at, can there be a gap between data and storage.
-/

namespace Pisces.Repartition

open Pisces.Lib Pisces.Lib.Awk Pisces.Lib.Script

/-- The partitions in front of data, 1 to 26; the last of them, `prev`, ends at
`e` MiB. -/
structure Base (base : List (ℕ × Part)) (prev : Part) (e : ℕ) : Prop where
  numbers : base.map Prod.fst = List.range' 1 26
  before : base.lookup (dataPartnum - 1) = some prev
  finish : prev.finish = e * MiB

/-- What is behind them: data from `start` on, and storage to the end. Storage
begins where data ends; if the table is loose, it can begin later or be there
without data. -/
structure Tail (loose : Prop) (start usable : ℕ) (tail : List (ℕ × Part)) : Prop where
  listed : (tail.map Prod.fst).Nodup
  numbers : ∀ np ∈ tail, np.1 = dataPartnum ∨ np.1 = storagePartnum
  data : ∀ p, (dataPartnum, p) ∈ tail → p.start = start ∧ start < p.finish ∧ p.finish ≤ usable
  storage : ∀ q, (storagePartnum, q) ∈ tail →
    start < q.start ∧ q.start + 63 * MiB ≤ usable ∧ q.finish = usable
  next : ∀ q, (storagePartnum, q) ∈ tail → (∃ p, (dataPartnum, p) ∈ tail ∧ p.finish = q.start) ∨
    loose ∧ ∀ p, (dataPartnum, p) ∈ tail → p.finish ≤ q.start

/-- A disk of `s` MiB whose data belongs at `e` MiB. -/
structure Tidy (loose : Prop) (base : List (ℕ × Part)) (e s : ℕ) (d : Disk) : Prop where
  size : d.size = s * MiB
  inside : e ≤ s
  ends : d.usable ≤ d.size ∧ d.size < d.usable + MiB
  parts : ∃ tail, d.parts = base ++ tail ∧ Tail loose (e * MiB) d.usable tail

/-- The table a resize to `n` MiB is to make. -/
def resized (base : List (ℕ × Part)) (e s : ℕ) (n : ℤ) (usable : ℕ) : List (ℕ × Part) :=
  if (s : ℤ) - e - n < 64 then base ++ [(dataPartnum, ⟨e * MiB, usable⟩)]
  else base ++ [(dataPartnum, ⟨e * MiB, ((e + n) * MiB).toNat⟩),
    (storagePartnum, ⟨((e + n) * MiB).toNat, usable⟩)]

variable {loose : Prop} {base tail : List (ℕ × Part)} {prev : Part} {e s : ℕ} {d d' : Disk}
  {env : Env} {n : ℤ}

/-! ## The partitions in front -/

theorem Base.listed (hbase : Base base prev e) : (base.map Prod.fst).Nodup := by
  rw [hbase.numbers]
  exact List.nodup_range'

theorem Base.others (hbase : Base base prev e) {np : ℕ × Part} (hnp : np ∈ base) :
    np.1 ≠ dataPartnum ∧ np.1 ≠ storagePartnum := by
  have hmem : np.1 ∈ List.range' 1 26 := by
    rw [← hbase.numbers]
    exact List.mem_map_of_mem hnp
  obtain ⟨-, hlt⟩ := List.mem_range'_1.mp hmem
  unfold dataPartnum storagePartnum
  omega

theorem Base.lookup_eq_none (hbase : Base base prev e) : base.lookup dataPartnum = none := by
  refine Repartition.lookup_eq_none fun hmem => ?_
  obtain ⟨np, hnp, heq⟩ := List.mem_map.mp hmem
  exact (hbase.others hnp).1 heq

theorem Base.filter_eq (hbase : Base base prev e) {k : ℕ}
    (hk : k = dataPartnum ∨ k = storagePartnum) : base.filter (·.1 ≠ k) = base := by
  rw [List.filter_eq_self]
  intro np hnp
  obtain ⟨hdata, hstorage⟩ := hbase.others hnp
  rcases hk with rfl | rfl
  · exact decide_eq_true hdata
  · exact decide_eq_true hstorage

/-! ## The partitions behind -/

section

variable {start usable : ℕ}

theorem Tail.data_only {b : ℕ} (hb : start < b ∧ b ≤ usable) :
    Tail loose start usable [(dataPartnum, ⟨start, b⟩)] where
  listed := List.nodup_singleton _
  numbers := List.forall_mem_singleton.mpr (.inl rfl)
  data p hp := by
    cases List.mem_singleton.mp hp
    exact ⟨rfl, hb⟩
  storage q hq := by cases List.mem_singleton.mp hq
  next q hq := by cases List.mem_singleton.mp hq

theorem Tail.both {b : ℕ} (hb : start < b) (hle : b + 63 * MiB ≤ usable) :
    Tail loose start usable [(dataPartnum, ⟨start, b⟩), (storagePartnum, ⟨b, usable⟩)] where
  listed := by
    show [dataPartnum, storagePartnum].Nodup
    decide
  numbers := List.forall_mem_cons.mpr ⟨.inl rfl, List.forall_mem_singleton.mpr (.inr rfl)⟩
  data p hp := by
    cases (List.mem_cons.mp hp).resolve_right fun h => by cases List.mem_singleton.mp h
    exact ⟨rfl, hb, (Nat.le_add_right _ _).trans hle⟩
  storage q hq := by
    cases List.mem_singleton.mp ((List.mem_cons.mp hq).resolve_left fun h => by cases h)
    exact ⟨hb, hle, rfl⟩
  next q hq := by
    cases List.mem_singleton.mp ((List.mem_cons.mp hq).resolve_left fun h => by cases h)
    exact .inl ⟨_, List.mem_cons_self, rfl⟩

theorem Tail.loosen (h : Tail loose start usable tail) : Tail True start usable tail where
  listed := h.listed
  numbers := h.numbers
  data := h.data
  storage := h.storage
  next q hq := (h.next q hq).imp_right fun hnext => ⟨trivial, hnext.2⟩

/-- Only data and storage can be there. -/
theorem Tail.eq_nil (h : Tail loose start usable tail)
    (hdata : ∀ p, (dataPartnum, p) ∉ tail) (hstorage : ∀ q, (storagePartnum, q) ∉ tail) :
    tail = [] := by
  refine List.eq_nil_iff_forall_not_mem.mpr fun np hnp => ?_
  obtain ⟨k, p⟩ := np
  rcases h.numbers _ hnp with rfl | rfl
  · exact hdata p hnp
  · exact hstorage p hnp

/-- Storage is removed. -/
theorem Tail.rmStorage (h : Tail loose start usable tail) :
    Tail loose start usable (tail.filter (·.1 ≠ storagePartnum)) where
  listed := h.listed.sublist (List.filter_sublist.map _)
  numbers np hnp := h.numbers np (List.mem_filter.mp hnp).1
  data p hp := h.data p (List.mem_filter.mp hp).1
  storage _ hq := absurd rfl (of_decide_eq_true (List.mem_filter.mp hq).2)
  next _ hq := absurd rfl (of_decide_eq_true (List.mem_filter.mp hq).2)

/-- Data is removed, and what is left is loose if storage is there. -/
theorem Tail.rmData (h : Tail loose start usable tail)
    (hloose : loose ∨ ∀ q, (storagePartnum, q) ∉ tail) :
    Tail loose start usable (tail.filter (·.1 ≠ dataPartnum)) where
  listed := h.listed.sublist (List.filter_sublist.map _)
  numbers np hnp := h.numbers np (List.mem_filter.mp hnp).1
  data p hp := absurd rfl (of_decide_eq_true (List.mem_filter.mp hp).2)
  storage q hq := h.storage q (List.mem_filter.mp hq).1
  next q hq := by
    refine .inr ⟨hloose.resolve_right fun hno => hno q (List.mem_filter.mp hq).1, fun p hp => ?_⟩
    exact absurd rfl (of_decide_eq_true (List.mem_filter.mp hp).2)

/-- Data is made, in front of storage if that is still there. -/
theorem Tail.makeData (h : Tail loose start usable tail) {b : ℕ} (hb : start < b ∧ b ≤ usable)
    (hnone : ∀ p, (dataPartnum, p) ∉ tail)
    (hspace : ∀ q, (storagePartnum, q) ∈ tail → loose ∧ b ≤ q.start) :
    Tail loose start usable (tail ++ [(dataPartnum, ⟨start, b⟩)]) := by
  have hdata : ∀ {p : Part}, (dataPartnum, p) ∈ tail ++ [(dataPartnum, ⟨start, b⟩)] →
      p = ⟨start, b⟩ := by
    intro p hp
    rcases List.mem_append.mp hp with hp | hp
    · exact absurd hp (hnone p)
    · cases List.mem_singleton.mp hp
      rfl
  have hstorage : ∀ {q : Part}, (storagePartnum, q) ∈ tail ++ [(dataPartnum, ⟨start, b⟩)] →
      (storagePartnum, q) ∈ tail := by
    intro q hq
    rcases List.mem_append.mp hq with hq | hq
    · exact hq
    · cases List.mem_singleton.mp hq
  refine ⟨?_, ?_, fun p hp => ?_, fun q hq => h.storage q (hstorage hq), fun q hq => ?_⟩
  · rw [List.map_append, List.nodup_append]
    refine ⟨h.listed, List.nodup_singleton _, ?_⟩
    rintro k hk _ hk' rfl
    obtain ⟨⟨_, p⟩, hp, rfl⟩ := List.mem_map.mp hk
    cases List.mem_singleton.mp hk'
    exact hnone p hp
  · intro np hnp
    rcases List.mem_append.mp hnp with hnp | hnp
    · exact h.numbers np hnp
    · rw [List.mem_singleton.mp hnp]
      exact .inl rfl
  · rw [hdata hp]
    exact ⟨rfl, hb⟩
  · obtain ⟨hloose, hle⟩ := hspace q (hstorage hq)
    exact .inr ⟨hloose, fun p hp => by rw [hdata hp]; exact hle⟩

end

/-! ## Reading a tidy table -/

theorem Tidy.listed (hbase : Base base prev e) (h : Tidy loose base e s d) : d.Listed := by
  obtain ⟨tail, hparts, htail⟩ := h.parts
  rw [Disk.Listed, hparts, List.map_append, List.nodup_append]
  refine ⟨hbase.listed, htail.listed, ?_⟩
  rintro k hk _ hk' rfl
  obtain ⟨np, hnp, rfl⟩ := List.mem_map.mp hk
  obtain ⟨np', hnp', heq⟩ := List.mem_map.mp hk'
  have hother := hbase.others hnp
  rcases htail.numbers np' hnp' with hnum | hnum
  · exact hother.1 (heq.symm.trans hnum)
  · exact hother.2 (heq.symm.trans hnum)

theorem Tidy.part_before (hbase : Base base prev e) (h : Tidy loose base e s d) :
    d.part (dataPartnum - 1) = some prev := by
  obtain ⟨tail, hparts, -⟩ := h.parts
  rw [Disk.part, hparts, List.lookup_append, hbase.before, Option.some_or]

/-- Data, if it is there, starts where it belongs. -/
theorem Tidy.start (hbase : Base base prev e) (h : Tidy loose base e s d) {p : Part}
    (hp : d.part dataPartnum = some p) : p.start = e * MiB := by
  obtain ⟨tail, hparts, htail⟩ := h.parts
  rw [Disk.part, hparts, List.lookup_append, hbase.lookup_eq_none, Option.none_or] at hp
  exact (htail.data p (mem_of_lookup hp)).1

theorem Tidy.listing (hbase : Base base prev e) (h : Tidy loose base e s d) : Listing d prev where
  listed := h.listed hbase
  before := h.part_before hbase
  order p hp := by rw [h.start hbase hp, hbase.finish]
  inside := by
    have hle : e * MiB ≤ d.size := by
      rw [h.size]
      exact Nat.mul_le_mul_right _ h.inside
    exact ⟨hbase.finish.le.trans hle, fun p hp => (h.start hbase hp).le.trans hle⟩
  usable := h.ends.1

/-- In whole MiB: the disk has `s`, and partition 26 ends and data begins at `e`. -/
theorem Tidy.whole (hparted : Parted env.shown) (hbase : Base base prev e) (he : 101 ≤ e)
    (h : Tidy loose base e s d) : WholeListing env d prev s e e := by
  have hlisting := h.listing hbase
  have haddressed := d.addressed
  have hinside := hlisting.inside.1
  have hprev := hbase.finish
  have hlarge : 100 * MiB < prev.finish := by
    rw [hprev]
    exact Nat.mul_lt_mul_of_pos_right (by omega) (by decide)
  obtain ⟨t, l, b, hwhole⟩ := hlisting.whole hparted hlarge
  have hlast : num (env.shown (prev.finish - 1)) = e :=
    hparted.shown_whole he (.inr (by rw [hprev])) (by omega)
  have htotal : num (env.shown d.size) = s :=
    hparted.shown_whole (he.trans h.inside) (.inl h.size) haddressed
  have hbegin : num (shownBegin env d prev) = e := by
    unfold shownBegin
    split
    · next p hp =>
        split
        · have hstart := h.start hbase hp
          exact hparted.shown_whole he (.inl hstart) (by omega)
        · exact hlast
    · exact hlast
  have ht : t = s := by exact_mod_cast hwhole.total.num.symm.trans htotal
  have hl : l = e := by exact_mod_cast hwhole.last.num.symm.trans hlast
  have hb : b = e := by exact_mod_cast hwhole.begins.symm.trans hbegin
  rwa [ht, hl, hb] at hwhole

/-! ## The plan -/

/-- Where the plan for `n` MiB puts data. -/
structure Placed (e s : ℕ) (n : ℤ) (d : Disk) (p : Plan) : Prop where
  newbegin : p.newbegin.byte d = e * MiB
  newend : p.newend = .full ∧ (s : ℤ) - e - n < 64 ∧ e * MiB < d.usable ∨
    p.newend ≠ .full ∧ 64 ≤ (s : ℤ) - e - n ∧ p.newend.byte d = ((e + n) * MiB).toNat ∧
      e * MiB < ((e + n) * MiB).toNat ∧ ((e + n) * MiB).toNat + 63 * MiB ≤ d.usable

theorem Placed.bounds {p : Plan} (hp : Placed e s n d p) :
    e * MiB < p.newend.byte d ∧ p.newend.byte d ≤ d.usable := by
  rcases hp.newend with ⟨hfull, -, hroom⟩ | ⟨-, -, hend, hlt, hle⟩
  · rw [hfull]
    exact ⟨hroom, le_rfl⟩
  · rw [hend]
    exact ⟨hlt, by omega⟩

theorem Tidy.placed (hparted : Parted env.shown) (hbase : Base base prev e) (he : 101 ≤ e)
    (h : Tidy loose base e s d) (hpass : Passes env (intText n) d) :
    Placed e s n d (plan env (intText n) d) := by
  have hlisting := h.listing hbase
  have hwhole := h.whole hparted hbase he
  obtain ⟨-, hn⟩ := hwhole.passes_iff.mp hpass
  have htotal := hwhole.total.bounds
  have hlast := hwhole.last.bounds
  have hnum : num (intText n) = n := num_intText (abs_le.mpr ⟨by omega, by omega⟩)
  have hsub : sub (num (getDatastorageSize env d)) (num (intText n)) = (s - e - n : ℤ) := by
    rw [hwhole.size, hnum, num_intText (abs_le.mpr ⟨by omega, by omega⟩),
      sub_intCast (abs_le.mpr ⟨by omega, by omega⟩)]
  have hbegin := hwhole.begins
  have hfirst : dataNewbegin env d = shownBegin env d prev :=
    dataNewbegin_shown hlisting.listed hlisting.before
  have hnumber : IsNumber (dataNewbegin env d) := by
    obtain ⟨b, hb, -⟩ := hwhole.start
    rw [hfirst, hb]
    exact ⟨hparted.word b, hparted.numeric b⟩
  obtain ⟨hnewbegin, hnewend⟩ := @plan_ends env d n
    (getDatastorageSize_isNumber hlisting hpass.detected) hnumber
  rw [hsub, hfirst, hbegin, hnum, add_intCast (abs_le.mpr ⟨by omega, by omega⟩), print_intCast]
    at hnewend
  obtain ⟨hends, hfar⟩ := h.ends
  rw [h.size] at hends hfar
  have hmib : MiB = 1048576 := rfl
  refine ⟨?_, ?_⟩
  · have hbyte : ⌊(e : ℚ) * MiB⌋.toNat = e * MiB := by
      rw [← Nat.cast_mul, Int.floor_natCast, Int.toNat_natCast]
    rw [hnewbegin, hfirst, Pos.byte, hbegin, Int.cast_natCast, hbyte]
  · by_cases hless : (s : ℤ) - e - n < 64
    · have hless' : ((s - e - n : ℤ) : ℚ) < 64 := by exact_mod_cast hless
      rw [if_pos hless'] at hnewend
      have hmul : (e + 8) * MiB ≤ s * MiB := Nat.mul_le_mul_right _ (by omega)
      rw [Nat.add_mul] at hmul
      exact .inl ⟨hnewend, hless, by omega⟩
    · have hless' : ¬ ((s - e - n : ℤ) : ℚ) < 64 := by exact_mod_cast hless
      rw [if_neg hless'] at hnewend
      have hbyte : (plan env (intText n) d).newend.byte d = ((e + n) * MiB).toNat := by
        rw [hnewend, byte_intText d (abs_le.mpr ⟨by omega, by omega⟩)]
      refine .inr ⟨?_, not_lt.mp hless, hbyte, ?_, ?_⟩
      · rw [hnewend]
        exact Pos.noConfusion
      · simp only [hmib]
        omega
      · simp only [hmib] at hends hfar ⊢
        omega

/-! ## A run of the script -/

theorem Tidy.of_parts (h : Tidy loose base e s d) (hsize : d'.size = d.size)
    (husable : d'.usable = d.usable) (hparts : d'.parts = base ++ tail)
    (htail : Tail loose (e * MiB) d.usable tail) : Tidy loose base e s d' where
  size := hsize.trans h.size
  inside := h.inside
  ends := by rw [hsize, husable]; exact h.ends
  parts := ⟨tail, hparts, by rw [husable]; exact htail⟩

theorem Tidy.loosen (h : Tidy loose base e s d) : Tidy True base e s d := by
  obtain ⟨tail, hparts, htail⟩ := h.parts
  exact ⟨h.size, h.inside, h.ends, tail, hparts, htail.loosen⟩

/-- The filesystem can change as it likes. -/
theorem Tidy.same (h : Tidy loose base e s d) (hsize : d'.size = d.size)
    (husable : d'.usable = d.usable) (hparts : d'.parts = d.parts) : Tidy loose base e s d' := by
  obtain ⟨tail, hd, htail⟩ := h.parts
  exact h.of_parts hsize husable (hparts.trans hd) htail

/-- A resize of the filesystem leaves the disk and its table alone. -/
theorem resizeDatafs_table (stage : Stage) (tosize : Option Text) (size usable : ℕ)
    (parts : List (ℕ × Part)) :
    Keeps (fun d => d.size = size ∧ d.usable = usable ∧ d.parts = parts)
      (resizeDatafs env stage tosize) := by
  refine .bind (.require _) fun _ => .bind (.require _) fun _ => .bind (.require _) fun _ => ?_
  cases tosize with
  | none => exact .bind (.op fun _ h => h) fun _ => .require _
  | some t => exact .bind (.op fun _ h => h) fun _ => .require _

theorem resizeDatafs_tidy (h : Tidy loose base e s d) (stage : Stage) (tosize : Option Text) :
    (resizeDatafs env stage tosize).wp
      (fun _ d' => Tidy loose base e s d' ∧ d'.usable = d.usable ∧ d'.parts = d.parts)
      (fun _ d' => Tidy loose base e s d') d := by
  refine wp_mono (resizeDatafs_table stage tosize _ _ _ d ⟨rfl, rfl, rfl⟩) ?_ ?_
  · rintro _ d' ⟨hsize, husable, hparts⟩
    exact ⟨h.same hsize husable hparts, husable, hparts⟩
  · rintro _ d' ⟨hsize, husable, hparts⟩
    exact h.same hsize husable hparts

/-- The table is loose, or parted removes what it is to remove. -/
def Removes (loose : Prop) (env : Env) : Prop := loose ∨ ∀ n, env.fails (.rm n) = false

/-- What `removePart` leaves of a list of partitions. -/
def left (env : Env) (n : ℕ) (parts : List (ℕ × Part)) : List (ℕ × Part) :=
  if env.fails (.rm n) then parts else parts.filter (·.1 ≠ n)

/-- A partition that was to be removed is still there only if the table is loose. -/
theorem Removes.of_mem_left (h : Removes loose env) {k : ℕ} {p : Part}
    (hp : (k, p) ∈ left env k tail) : loose := by
  unfold left at hp
  split at hp
  · next hfails =>
      refine h.resolve_right fun hworks => ?_
      exact Bool.false_ne_true ((hworks k).symm.trans hfails)
  · exact absurd rfl (of_decide_eq_true (List.mem_filter.mp hp).2)

theorem left_subset (env : Env) (k : ℕ) (tail : List (ℕ × Part)) : left env k tail ⊆ tail := by
  unfold left
  split
  · exact List.Subset.refl _
  · exact fun _ h => (List.mem_filter.mp h).1

theorem wp_removePart_left {k : ℕ} {C : Stop → Disk → Prop} {Q : Unit → Disk → Prop}
    (hkill : C .killed d) (hnext : ∀ d', d'.size = d.size → d'.usable = d.usable →
      d'.parts = left env k d.parts → Q () d') : (removePart env k).wp Q C d := by
  unfold removePart
  split
  · next hfails => exact hnext d rfl rfl (by rw [left, if_pos hfails])
  · next hworks => exact ⟨hkill, hnext _ rfl rfl (by rw [left, if_neg hworks]; rfl)⟩

theorem Base.left_eq (hbase : Base base prev e) {k : ℕ} (hk : k = dataPartnum ∨ k = storagePartnum)
    (tail : List (ℕ × Part)) : left env k (base ++ tail) = base ++ left env k tail := by
  unfold left
  split
  · rfl
  · rw [List.filter_append, hbase.filter_eq hk]

/-- What is left of the tail after both. -/
theorem Tail.removed {start usable : ℕ} (h : Tail loose start usable tail)
    (hremoves : Removes loose env) :
    Tail loose start usable (left env storagePartnum tail) ∧
      Tail loose start usable (left env dataPartnum (left env storagePartnum tail)) := by
  have hstorage : Tail loose start usable (left env storagePartnum tail) := by
    unfold left
    split
    · exact h
    · exact h.rmStorage
  refine ⟨hstorage, ?_⟩
  by_cases hthere : ∃ q, (storagePartnum, q) ∈ left env storagePartnum tail
  · obtain ⟨q, hq⟩ := hthere
    have hloose := hremoves.of_mem_left hq
    unfold left
    split
    · exact hstorage
    · exact hstorage.rmData (.inl hloose)
  · have hnone := not_exists.mp hthere
    unfold left
    split
    · exact hstorage
    · exact hstorage.rmData (.inr hnone)

/-- Where parted makes a partition, neither data nor storage is in the way. -/
theorem clear_parts {b x : Pos} (h : d.clear b x = true) {k : ℕ} {p : Part}
    (hk : k = dataPartnum ∨ k = storagePartnum) (hp : (k, p) ∈ d.parts) :
    p.finish ≤ b.byte d ∨ x.byte d ≤ p.start := by
  have hall := of_decide_eq_true (List.all_eq_true.mp h (k, p) hp)
  refine hall.resolve_left fun hne => ?_
  rcases hk with rfl | rfl
  · exact hne.1 rfl
  · exact hne.2 rfl

/-- Data is made only if no data is left, and then in front of storage. -/
theorem Tail.make_clear {p : Plan} (hp : Placed e s n d' p) (hd : d.usable = d'.usable)
    (h : Tail loose (e * MiB) d'.usable (left env dataPartnum (left env storagePartnum tail)))
    (hremoves : Removes loose env)
    (hparts : d.parts = base ++ left env dataPartnum (left env storagePartnum tail))
    (hclear : d.clear p.newbegin p.newend = true) :
    (∀ q, (dataPartnum, q) ∉ left env dataPartnum (left env storagePartnum tail)) ∧
      ∀ q, (storagePartnum, q) ∈ left env dataPartnum (left env storagePartnum tail) →
        loose ∧ p.newend.byte d' ≤ q.start := by
  obtain ⟨hlt, hle⟩ := hp.bounds
  have hbegin : p.newbegin.byte d = e * MiB := (p.newbegin.byte_congr hd).trans hp.newbegin
  have hend : p.newend.byte d = p.newend.byte d' := p.newend.byte_congr hd
  have hmem : ∀ np ∈ left env dataPartnum (left env storagePartnum tail), np ∈ d.parts := by
    intro np hnp
    rw [hparts]
    exact List.mem_append_right _ hnp
  constructor
  · intro q hq
    obtain ⟨hstart, hfinish, -⟩ := h.data q hq
    rcases clear_parts hclear (.inl rfl) (hmem _ hq) with hbefore | hafter
    · rw [hbegin] at hbefore
      omega
    · rw [hend] at hafter
      omega
  · intro q hq
    obtain ⟨hstart, hfar, hfinish⟩ := h.storage q hq
    refine ⟨hremoves.of_mem_left (left_subset env _ _ hq), ?_⟩
    rcases clear_parts hclear (.inr rfl) (hmem _ hq) with hbefore | hafter
    · rw [hbegin] at hbefore
      omega
    · rwa [hend] at hafter

/-- Storage is made only if no storage is left. -/
theorem makeStorage_tidy {b : ℕ} {x : Pos} (h : Tidy loose base e s d)
    (hparts : d.parts = base ++ (tail ++ [(dataPartnum, ⟨e * MiB, b⟩)]))
    (htail : Tail loose (e * MiB) d.usable tail) (hnone : ∀ p, (dataPartnum, p) ∉ tail)
    (hx : x.byte d = b) (hlt : e * MiB < b) (hle : b + 63 * MiB ≤ d.usable) :
    (makeStorage env x).wp
      (fun _ d' => Tidy loose base e s d' ∧ d'.parts =
        base ++ [(dataPartnum, ⟨e * MiB, b⟩), (storagePartnum, ⟨b, d.usable⟩)])
      (fun _ d' => Tidy loose base e s d') d := by
  rw [makeStorage]
  simp only [wp_bind, wp_op, wp_get]
  refine wp_require (fun _ => wp_require (fun hclear => ⟨h, ?_⟩) fun _ => h) fun _ => h
  have hnil : tail = [] := by
    refine htail.eq_nil hnone fun q hq => ?_
    obtain ⟨hstart, hfar, hfinish⟩ := htail.storage q hq
    have hmem : (storagePartnum, q) ∈ d.parts := by
      rw [hparts]
      exact List.mem_append_right _ (List.mem_append_left _ hq)
    have hpos : 0 < MiB := by decide
    have hfull : Pos.full.byte d = d.usable := rfl
    rcases clear_parts hclear (.inr rfl) hmem with hbefore | hafter
    · omega
    · omega
  subst hnil
  have hparts' : (Disk.mkpart storagePartnum x .full d).parts =
      base ++ [(dataPartnum, ⟨e * MiB, b⟩), (storagePartnum, ⟨b, d.usable⟩)] := by
    show d.parts ++ [(storagePartnum, ⟨x.byte d, d.usable⟩)] = _
    rw [hparts, hx, List.append_assoc]
    rfl
  have h' : Tidy loose base e s (Disk.mkpart storagePartnum x .full d) :=
    h.of_parts rfl rfl hparts' (.both hlt hle)
  refine wp_require (fun _ => wp_require (fun _ => ⟨h', ?_⟩) fun _ => h') fun _ => h'
  exact ⟨h'.same rfl rfl rfl, hparts'⟩

/-- From the new data partition on. -/
theorem makeAll_tidy {p : Plan} {d₁ : Disk} (hp : Placed e s n d p) (h : Tidy loose base e s d)
    (h₁ : Tidy loose base e s d₁) (husable : d₁.usable = d.usable)
    (hremoves : Removes loose env)
    (hparts : d₁.parts = base ++ left env dataPartnum (left env storagePartnum tail))
    (htail : Tail loose (e * MiB) d.usable (left env dataPartnum (left env storagePartnum tail))) :
    (makeData env p.newbegin p.newend >>= fun _ => resizeDatafs env .fill none >>= fun _ =>
      if p.newend = .full then pure () else makeStorage env p.newend).wp
      (fun _ d' => Tidy loose base e s d' ∧ d'.parts = resized base e s n d.usable)
      (fun _ d' => Tidy loose base e s d') d₁ := by
  simp only [wp_bind, makeData, wp_get, wp_op]
  refine wp_require (fun _ => wp_require (fun hclear => ⟨h₁, ?_⟩) fun _ => h₁) fun _ => h₁
  obtain ⟨hnone, hspace⟩ := htail.make_clear hp husable hremoves hparts hclear
  generalize left env dataPartnum (left env storagePartnum tail) = rest at *
  have hbegin : p.newbegin.byte d₁ = e * MiB := (p.newbegin.byte_congr husable).trans hp.newbegin
  have hend : p.newend.byte d₁ = p.newend.byte d := p.newend.byte_congr husable
  generalize hd₂ : ({ d₁.mkpart dataPartnum p.newbegin p.newend with
    made := some (⟨p.newbegin.byte d₁, p.newend.byte d₁⟩, d₁.fs) } : Disk) = d₂
  have husable₂ : d₂.usable = d.usable := by
    rw [← hd₂]
    exact husable
  have hsize₂ : d₂.size = d.size := by
    rw [← hd₂]
    exact h₁.size.trans h.size.symm
  have hparts₂ : d₂.parts = base ++ (rest ++ [(dataPartnum, ⟨e * MiB, p.newend.byte d⟩)]) := by
    rw [← hd₂, ← List.append_assoc, ← hparts, ← hbegin, ← hend]
    rfl
  have h₂ : Tidy loose base e s d₂ :=
    h.of_parts hsize₂ husable₂ hparts₂ (htail.makeData hp.bounds hnone hspace)
  refine wp_mono (resizeDatafs_tidy h₂ .fill none) ?_ fun _ _ h' => h'
  rintro _ d₃ ⟨h₃, husable₃, hparts₃⟩
  have husable' : d₃.usable = d.usable := husable₃.trans husable₂
  rcases hp.newend with ⟨hfull, hless, -⟩ | ⟨hsome, hmore, hbyte, hlt, hle⟩
  · rw [if_pos hfull]
    refine ⟨h₃, ?_⟩
    have hnil : rest = [] := by
      refine htail.eq_nil hnone fun q hq => ?_
      obtain ⟨-, hfar, -⟩ := htail.storage q hq
      have hbefore := (hspace q hq).2
      have hpos : 0 < MiB := by decide
      have husableByte : p.newend.byte d = d.usable := by rw [hfull]; rfl
      omega
    rw [hparts₃, hparts₂, resized, if_pos hless, hfull, hnil]
    rfl
  · rw [if_neg hsome]
    rw [hbyte] at hparts₂
    have hx : p.newend.byte d₃ = ((e + n) * MiB).toNat :=
      (p.newend.byte_congr husable').trans hbyte
    have hmake := @makeStorage_tidy loose base rest e s d₃ env _ _ h₃ (hparts₃.trans hparts₂)
      (by rw [husable']; exact htail) hnone hx hlt (by rw [husable']; exact hle)
    rw [husable'] at hmake
    rw [resized, if_neg (not_lt.mpr hmore)]
    exact hmake

theorem carryOut_tidy {p : Plan} (hbase : Base base prev e) (hremoves : Removes loose env)
    (h : Tidy loose base e s d) (hp : Placed e s n d p) :
    (carryOut env p).wp
      (fun _ d' => Tidy loose base e s d' ∧ d'.parts = resized base e s n d.usable)
      (fun _ d' => Tidy loose base e s d') d := by
  have hrest : ∀ {d₁ : Disk}, Tidy loose base e s d₁ → d₁.usable = d.usable →
      (removePart env storagePartnum >>= fun _ => removePart env dataPartnum >>= fun _ =>
        makeData env p.newbegin p.newend >>= fun _ => resizeDatafs env .fill none >>= fun _ =>
        if p.newend = .full then pure () else makeStorage env p.newend).wp
        (fun _ d' => Tidy loose base e s d' ∧ d'.parts = resized base e s n d.usable)
        (fun _ d' => Tidy loose base e s d') d₁ := by
    intro d₁ h₁ husable
    obtain ⟨tail, hparts, htail⟩ := h₁.parts
    obtain ⟨htail₂, htail₃⟩ := htail.removed hremoves
    rw [wp_bind]
    refine wp_removePart_left h₁ fun d₂ hsize₂ husable₂ hparts₂ => ?_
    rw [hparts, hbase.left_eq (.inr rfl)] at hparts₂
    have h₂ : Tidy loose base e s d₂ := h₁.of_parts hsize₂ husable₂ hparts₂ htail₂
    rw [wp_bind]
    refine wp_removePart_left h₂ fun d₃ hsize₃ husable₃ hparts₃ => ?_
    rw [hparts₂, hbase.left_eq (.inl rfl)] at hparts₃
    have h₃ : Tidy loose base e s d₃ :=
      h₁.of_parts (hsize₃.trans hsize₂) (husable₃.trans husable₂) hparts₃ htail₃
    rw [husable] at htail₃
    exact makeAll_tidy hp h h₃ ((husable₃.trans husable₂).trans husable) hremoves hparts₃ htail₃
  rw [carryOut]
  split
  · rw [wp_bind]
    refine wp_mono (resizeDatafs_tidy h .shrink (some p.shrinkto)) ?_ fun _ _ h' => h'
    rintro _ d₁ ⟨h₁, husable, -⟩
    exact hrest h₁ husable
  · exact hrest h rfl

theorem recoveryResize_tidy (hparted : Parted env.shown) (hbase : Base base prev e)
    (he : 101 ≤ e) (hremoves : Removes loose env) (h : Tidy loose base e s d) :
    (recoveryResize env (intText n)).wp
      (fun _ d' => Tidy loose base e s d' ∧ d'.parts = resized base e s n d.usable)
      (fun _ d' => Tidy loose base e s d') d := by
  unfold recoveryResize
  simp only [wp_bind, wp_get]
  refine wp_require (fun hdetected => ?_) fun _ => h
  refine wp_require (fun _ => wp_require (fun _ => ?_) fun _ => h) fun _ => h
  refine wp_require (fun hsmall => wp_require (fun hlarge => ?_) fun _ => h) fun _ => h
  have hpass : Passes env (intText n) d :=
    ⟨of_decide_eq_true hdetected, by simpa using hsmall, by simpa using hlarge⟩
  have hplaced := h.placed hparted hbase he hpass
  -- the plan is not looked into here
  generalize plan env (intText n) d = p at hplaced
  exact carryOut_tidy hbase hremoves h hplaced

/-! ## Runs -/

/-- A resize, with what it finds outside and how far it gets; or the disk is used,
and the filesystems on it are others afterwards. -/
inductive Happening where
  | resize (env : Env) (budget : Option ℕ) (n : ℤ)
  | use (fs : Option Fs) (storageFiles : Bool)

def step (d : Disk) : Happening → Option Disk
  | .resize env budget n => some ((recoveryResize env (intText n)).run budget d).state
  | .use fs storageFiles => some { d with fs := fs, storageFiles := storageFiles }

/-- Resizes see what parted shows; and unless the table can be loose, parted removes the
partitions that it is to remove. -/
def ByParted (loose : Prop) (_ : Disk) : Happening → Prop
  | .resize env _ _ => Parted env.shown ∧ Removes loose env
  | .use _ _ => True

theorem step_tidy (hbase : Base base prev e) (he : 101 ≤ e) {x : Happening}
    (h : Tidy loose base e s d) (hok : ByParted loose d x) (hstep : step d x = some d') :
    Tidy loose base e s d' := by
  cases x with
  | resize env budget n =>
      obtain rfl := Option.some.inj hstep
      refine run_state (wp_mono (recoveryResize_tidy hok.1 hbase he hok.2 h) ?_ fun _ _ h' => h')
        budget
      exact fun _ _ h' => h'.1
  | use fs storageFiles =>
      obtain rfl := Option.some.inj hstep
      exact h.same rfl rfl rfl

/-- If data starts where partition 26 ends, at a whole MiB of a disk of whole MiB, then
after any run of resizes, killed or failed wherever one likes, the partitions in front of
data are as they were, data starts where it did or is missing, and storage fills the rest
of the disk or is missing, where only a partition that parted did not remove can leave a
gap before storage; and the next resize that completes makes exactly the two that were
asked for. -/
theorem resizes_keep_table (hbase : Base base prev e) (he : 101 ≤ e) {d₀ : Disk}
    {es : List Happening} (h₀ : Tidy loose base e s d₀) (hrun : Run step (ByParted loose) d₀ es d) :
    Tidy loose base e s d ∧ ∀ env budget n d', Parted env.shown →
      (recoveryResize env (intText n)).run budget d = .done () d' →
      d'.parts = resized base e s n d.usable := by
  have h : Tidy loose base e s d :=
    hrun.invariant (I := Tidy loose base e s) h₀ fun _ _ _ hd hok => step_tidy hbase he hd hok
  refine ⟨h, fun env budget n d' hparted hdone => ?_⟩
  have hany : Tidy True base e s d := h.loosen
  have hspec := recoveryResize_tidy (n := n) hparted hbase he (.inl trivial) hany
  have hmeets := run_meets hspec budget
  rw [hdone] at hmeets
  exact hmeets.2

/-- A resize to 500 MiB is killed when both partitions are gone, and so no
filesystem is found. -/
def killedBare : Disk :=
  { ((recoveryResize sampleEnv (intText 500)).run (some 3) (sampleDisk (200 * MiB))).state with
    fs := none
    storageFiles := false }

/-- The next one, to 300 MiB, puts data back where it was. -/
theorem resizes_keep_table_killed :
    ∃ d', Run step (ByParted False) (sampleDisk (200 * MiB))
        [.resize sampleEnv (some 3) 500, .use none false] killedBare ∧
      killedBare.parts = sampleBase ∧
      (recoveryResize sampleEnv (intText 300)).run none killedBare = .done () d' ∧
      d'.parts = sampleBase ++ [(27, ⟨200 * MiB, 500 * MiB⟩),
        (28, ⟨500 * MiB, 1024 * MiB - 16896⟩)] := by
  have hbase : Base sampleBase ⟨100 * MiB, 200 * MiB⟩ 200 := ⟨by decide, rfl, rfl⟩
  have htidy : Tidy False sampleBase 200 1024 (sampleDisk (200 * MiB)) :=
    ⟨rfl, by decide, by decide, _, rfl, .data_only (by decide)⟩
  have hrun : Run step (ByParted False) (sampleDisk (200 * MiB))
      [.resize sampleEnv (some 3) 500, .use none false] killedBare :=
    .snoc (.snoc .nil ⟨nearestMiB_parted, .inr fun _ => rfl⟩ rfl) trivial rfl
  have hdone : ((recoveryResize sampleEnv (intText 300)).run none killedBare).isDone = true := by
    decide +kernel
  have hnext := (resizes_keep_table hbase (by decide) htidy hrun).2 sampleEnv none 300 _
    nearestMiB_parted (Outcome.eq_done hdone)
  have husable : killedBare.usable = 1024 * MiB - 16896 := by decide +kernel
  rw [husable] at hnext
  exact ⟨_, hrun, by decide +kernel, Outcome.eq_done hdone, hnext⟩

end Pisces.Repartition
