import Pisces.Dualboot.Rules

/-!
# Where the entries of a system are

At every moment, also in the middle of a move, the entries a system started
with are in one of three places: outside (the active entries, together with the
system-k.tmp they come from or go to), in system-k, or in system-k.disabled. A
.layout_version that the script itself makes is the one thing that can be beside
them, or alone in a place that is nobody's.

`Kept` says this of one state, with each system's place, and there is one lemma
for each operation of the script. A move keeps it as long as it does not put a
.layout_version made by the script in the place of one that was there.
-/

namespace Pisces.Dualboot

open Pisces.Lib

/-- The directory has all of `o`, and beside that at most a .layout_version. -/
structure Holds (d o : Entries) : Prop where
  kept : ∀ n v, o.lookup n = some v → d.lookup n = some v
  only : ∀ n ∈ d, n ∈ o ∨ n = layoutVersion

namespace Holds

variable {d d' o : Entries}

theorem refl (d : Entries) : Holds d d := ⟨fun _ _ h => h, fun _ h => .inl h⟩

theorem ne_empty (h : Holds d o) (ho : o ≠ ∅) : d ≠ ∅ := by
  rintro rfl
  refine ho (Dir.eq_empty_iff.mpr fun n hn => ?_)
  obtain ⟨v, hv⟩ := Finmap.mem_iff.mp hn
  exact Finmap.notMem_empty (Finmap.mem_of_lookup_eq_some (h.kept n v hv))

theorem empty_iff : Holds d ∅ ↔ ∀ n ∈ d, n = layoutVersion := by
  constructor
  · intro h n hn
    exact (h.only n hn).resolve_left Finmap.notMem_empty
  · intro h
    exact ⟨fun n v hv => absurd (Finmap.mem_of_lookup_eq_some hv) Finmap.notMem_empty,
      fun n hn => .inr (h n hn)⟩

theorem insert (h : Holds d o) (hnew : layoutVersion ∉ d) (v : Node) :
    Holds (d.insert layoutVersion v) o := by
  constructor
  · intro n v' hv
    have hn : n ≠ layoutVersion := by
      rintro rfl
      exact hnew (Finmap.mem_of_lookup_eq_some (h.kept _ _ hv))
    rw [Finmap.lookup_insert_of_ne _ hn]
    exact h.kept n v' hv
  · intro n hn
    rcases Finmap.mem_insert.mp hn with rfl | hn
    · exact .inr rfl
    · exact h.only n hn

/-- Beside a scrap directory it still holds what it held. -/
theorem union (h : Holds d o) (h' : Holds d' ∅) : Holds (d ∪ d') o := by
  constructor
  · intro n v hv
    rw [Dir.lookup_union, h.kept n v hv, Option.some_or]
  · intro n hn
    rcases Finmap.mem_union.mp hn with hn | hn
    · exact h.only n hn
    · exact .inr (empty_iff.mp h' n hn)

/-- What is in both directories is read from the first. -/
theorem of_union_of_subset (h : Holds (d ∪ d') o) (hsub : ∀ n ∈ d', n ∈ d) : Holds d o := by
  constructor
  · intro n v hv
    have hu := h.kept n v hv
    have hn : n ∈ d := by
      rcases Finmap.mem_union.mp (Finmap.mem_of_lookup_eq_some hu) with hn | hn
      · exact hn
      · exact hsub n hn
    rwa [Finmap.lookup_union_left hn] at hu
  · intro n hn
    exact h.only n (Finmap.mem_union.mpr (.inl hn))

end Holds

inductive Place where
  | active
  | sealed
  | disabled
  deriving DecidableEq

/-- What the active entries, and the .tmp directory if there is one, are the
entries of. -/
def out (o : SysId → Entries) (home : SysId → Place) : Entries :=
  if home .one = .active then o .one else if home .two = .active then o .two else ∅

/-- What system-k and system-k.disabled hold when the entries `o` of system `k`
are at the given place. -/
def AtHome (o : Entries) (p : Place) (box disabledBox : Option Entries) : Prop :=
  match p with
  | .active => box = none ∧ disabledBox = none
  | .sealed => (∃ c, box = some c ∧ Holds c o) ∧ disabledBox = none
  | .disabled => (∀ c, box = some c → Holds c ∅) ∧ ∃ c, disabledBox = some c ∧ Holds c o

/-- The entries of system `k` are at its place `home k`. -/
structure Kept (o : SysId → Entries) (home : SysId → Place) (d : Data) : Prop where
  apart : ∀ k, home k = .active → home k.other ≠ .active
  atHome : ∀ k, AtHome (o k) (home k) (d.sealed k) (d.disabled k)
  alone : ∀ m, d.tmp m ≠ none → d.tmp m.other = none ∧ d.sealed m = none ∧
    home m.other ≠ .active
  settled : (∀ m, d.tmp m = none) → Holds d.active (out o home)
  moving : ∀ m t, d.tmp m = some t → Holds (t ∪ d.active) (out o home)
  split : ∀ m t, d.tmp m = some t → ∀ n ∈ d.active, n ∈ t → n = layoutVersion

/-- Finishing the move to system-m.tmp would replace its .layout_version. -/
def Data.clobbers (d : Data) (m : SysId) : Bool :=
  match d.tmp m with
  | none => false
  | some t =>
      match d.active.lookup layoutVersion, t.lookup layoutVersion with
      | some v, some old => v.replaces old
      | _, _ => false

def NoClobber (d : Data) : Prop := ∀ m, d.clobbers m = false

theorem NoClobber.replaces {d : Data} {m : SysId} {t : Entries} {v old : Node} (h : NoClobber d)
    (ht : d.tmp m = some t) (hv : d.active.lookup layoutVersion = some v)
    (hold : t.lookup layoutVersion = some old) : v.replaces old = false := by
  have hm := h m
  rw [Data.clobbers, ht] at hm
  simp only [hv, hold] at hm
  exact hm

/-- The entries the systems start with: some for each, and none with a name
that means something to the script. -/
structure Plain (o : SysId → Entries) : Prop where
  nonempty : ∀ k, o k ≠ ∅
  noMedia : ∀ k, "media" ∉ o k
  noLegacy : ∀ k j, legacyName j ∉ o k


theorem out_of_active {o : SysId → Entries} {home : SysId → Place} {k : SysId}
    (hapart : ∀ k, home k = .active → home k.other ≠ .active) (hk : home k = .active) :
    out o home = o k := by
  cases k with
  | one => rw [out, if_pos hk]
  | two =>
      have hone : home .one ≠ .active := hapart .two hk
      rw [out, if_neg hone, if_pos hk]

theorem out_of_none {o : SysId → Entries} {home : SysId → Place} (h : ∀ k, home k ≠ .active) :
    out o home = ∅ := by
  rw [out, if_neg (h .one), if_neg (h .two)]

theorem out_cases (o : SysId → Entries) (home : SysId → Place) :
    (∃ k, out o home = o k) ∨ out o home = ∅ := by
  unfold out
  split
  · exact .inl ⟨.one, rfl⟩
  · split
    · exact .inl ⟨.two, rfl⟩
    · exact .inr rfl

namespace Kept

variable {o : SysId → Entries} {home : SysId → Place} {d : Data} {m k : SysId} {t : Entries}

/-- A name outside is one the systems started with, or .layout_version. -/
theorem mem_cases (h : Kept o home d) {n : Name}
    (hn : n ∈ d.active ∨ ∃ m t, d.tmp m = some t ∧ n ∈ t) :
    (∃ k, n ∈ o k) ∨ n = layoutVersion := by
  have hout : n ∈ out o home ∨ n = layoutVersion := by
    by_cases htmp : ∀ m, d.tmp m = none
    · rcases hn with hn | ⟨m, t, ht, -⟩
      · exact (h.settled htmp).only n hn
      · rw [htmp m] at ht
        cases ht
    · rw [not_forall] at htmp
      obtain ⟨m, hm⟩ := htmp
      obtain ⟨t, ht⟩ := Option.ne_none_iff_exists'.mp hm
      refine (h.moving m t ht).only n (Finmap.mem_union.mpr ?_)
      rcases hn with hn | ⟨m', t', ht', hn⟩
      · exact .inr hn
      · -- there is one .tmp directory at most
        rcases SysId.eq_or_other m m' with rfl | rfl
        · rw [ht, Option.some.injEq] at ht'
          subst ht'
          exact .inl hn
        · rw [(h.alone m hm).1] at ht'
          cases ht'
  rcases hout with hn | hn
  · rcases out_cases o home with ⟨k, hk⟩ | hempty
    · rw [hk] at hn
      exact .inl ⟨k, hn⟩
    · rw [hempty] at hn
      exact absurd hn Finmap.notMem_empty
  · exact .inr hn

theorem legacyDir_eq_none (h : Kept o home d) (hplain : Plain o) (k : SysId) :
    d.legacyDir k = none := by
  have hn : legacyName k ∉ d.active := by
    intro hn
    rcases h.mem_cases (.inl hn) with ⟨j, hj⟩ | hlv
    · exact hplain.noLegacy j k hj
    · cases k <;> exact absurd hlv (by decide)
  rw [Data.legacyDir, Finmap.lookup_eq_none.mpr hn]

theorem noMedia (h : Kept o home d) (hplain : Plain o) (ht : d.tmp m = some t) :
    "media" ∉ t := by
  intro hn
  rcases h.mem_cases (.inr ⟨m, t, ht, hn⟩) with ⟨j, hj⟩ | hlv
  · exact hplain.noMedia j hj
  · exact absurd hlv (by decide)

/-- Nobody's active entries are a .layout_version at most. -/
theorem active_scrap (h : Kept o home d) (htmp : d.Settled) (hnone : ∀ k, home k ≠ .active) :
    Holds d.active ∅ := by
  have hset := h.settled htmp
  rwa [out_of_none hnone] at hset

theorem sealed_eq_none (h : Kept o home d) (hk : home k = .active) : d.sealed k = none := by
  have hhome := h.atHome k
  rw [hk] at hhome
  exact hhome.1

/-- A state with no .tmp directory. -/
theorem ofSettled (hapart : ∀ k, home k = .active → home k.other ≠ .active)
    (hhome : ∀ k, AtHome (o k) (home k) (d.sealed k) (d.disabled k)) (htmp : d.Settled)
    (hactive : Holds d.active (out o home)) : Kept o home d where
  apart := hapart
  atHome := hhome
  alone := fun m hm => absurd (htmp m) hm
  settled := fun _ => hactive
  moving := fun m t ht => by rw [htmp m] at ht; cases ht
  split := fun m t ht => by rw [htmp m] at ht; cases ht

/-- A state in the middle of a move, to or from system-m.tmp. -/
theorem ofMoving (hapart : ∀ k, home k = .active → home k.other ≠ .active)
    (hhome : ∀ k, AtHome (o k) (home k) (d.sealed k) (d.disabled k)) (ht : d.tmp m = some t)
    (halone : d.tmp m.other = none ∧ d.sealed m = none ∧ home m.other ≠ .active)
    (hmoving : Holds (t ∪ d.active) (out o home))
    (hsplit : ∀ n ∈ d.active, n ∈ t → n = layoutVersion) : Kept o home d := by
  have htmp : ∀ j s, d.tmp j = some s → j = m ∧ s = t := by
    intro j s hj
    rcases SysId.eq_or_other m j with rfl | rfl
    · rw [ht, Option.some.injEq] at hj
      exact ⟨rfl, hj.symm⟩
    · rw [halone.1] at hj
      cases hj
  constructor
  case apart => exact hapart
  case atHome => exact hhome
  case alone =>
    intro j hj
    obtain ⟨s, hs⟩ := Option.ne_none_iff_exists'.mp hj
    obtain ⟨rfl, -⟩ := htmp j s hs
    exact halone
  case settled =>
    intro hnone
    rw [hnone m] at ht
    cases ht
  case moving =>
    intro j s hj
    obtain ⟨rfl, rfl⟩ := htmp j s hj
    exact hmoving
  case split =>
    intro j s hj
    obtain ⟨rfl, rfl⟩ := htmp j s hj
    exact hsplit

/-! ## The moves -/

/-- A step that changes only the active entries and the one .tmp directory. -/
theorem withMove (h : Kept o home d) (ht : d.tmp m = some t) {a' t' : Entries}
    (hmoving : Holds (t' ∪ a') (out o home))
    (hsplit : ∀ n ∈ a', n ∈ t' → n = layoutVersion) : Kept o home (d.withMove m a' t') := by
  obtain ⟨hother, hsealed, hhome⟩ := h.alone m (by rw [ht]; exact Option.some_ne_none _)
  refine ofMoving h.apart h.atHome (Data.withMove_tmp d m a' t') ⟨?_, hsealed, hhome⟩ hmoving hsplit
  rw [Data.withMove_tmp_other, hother]

/-- What the two directories share is one name, and its move is refused. -/
theorem shared_refused (h : Kept o home d) (hno : NoClobber d) (ht : d.tmp m = some t) :
    ∀ n ∈ d.active, n ∈ t → Dir.Refused Node.replaces d.active t n := by
  intro n ha hn
  obtain rfl := h.split m t ht n ha hn
  obtain ⟨v, hv⟩ := Finmap.mem_iff.mp ha
  obtain ⟨old, hold⟩ := Finmap.mem_iff.mp hn
  exact ⟨v, old, hv, hold, hno.replaces ht hv hold⟩

theorem packing (h : Kept o home d) (hno : NoClobber d) (ht : d.tmp m = some t)
    {rest : List Name} {a' t' : Entries}
    (hpart : Dir.Partway Node.replaces d.active t rest a' t') :
    Kept o home (d.withMove m a' t') := by
  refine h.withMove ht ?_ ?_
  · rw [hpart.union_dst (h.shared_refused hno ht)]
    exact h.moving m t ht
  · intro n ha hn
    exact h.split m t ht n (hpart.mem_src ha) ((hpart.mem_dst ha).mp hn)

theorem unpacking (h : Kept o home d) (ht : d.tmp m = some t) {rest : List Name}
    {a' t' : Entries} (hpart : Dir.Partway Node.replaces t d.active rest t' a') :
    Kept o home (d.withMove m a' t') := by
  refine h.withMove ht ?_ ?_
  · rw [hpart.union]
    exact h.moving m t ht
  · intro n ha hn
    exact h.split m t ht n ((hpart.mem_dst hn).mp ha) (hpart.mem_src hn)

/-! ## The directory operations -/

/-- An empty system-k is nobody's. -/
theorem rmdirSealed (h : Kept o home d) (hplain : Plain o) (k : SysId) :
    Kept o home (rmdirSealed k d) := by
  unfold Dualboot.rmdirSealed
  split
  · next hempty =>
      have hatHome : AtHome (o k) (home k) none (d.disabled k) := by
        have hhome := h.atHome k
        rw [hempty] at hhome
        cases hk : home k <;> rw [hk] at hhome
        · cases hhome.1
        · obtain ⟨⟨c, hc, hholds⟩, -⟩ := hhome
          rw [Option.some.injEq] at hc
          exact absurd hc.symm (hholds.ne_empty (hplain.nonempty k))
        · exact ⟨nofun, hhome.2⟩
      refine { h with atHome := ?_, alone := fun m hm => ?_ }
      · rw [SysId.forall_iff k]
        simp only [Function.update_self, Function.update_of_ne (SysId.other_ne k)]
        exact ⟨hatHome, h.atHome k.other⟩
      · obtain ⟨hother, hsealed, hhome⟩ := h.alone m hm
        refine ⟨hother, ?_, hhome⟩
        show Function.update d.sealed k none m = none
        rw [Function.update_apply]
        split
        · rfl
        · exact hsealed
  · exact h

/-- `mv system-m.tmp system-m` after everything was packed: if the entries of
system `m` were outside, they are sealed now. -/
theorem sealTmp (h : Kept o home d) (ht : d.tmp m = some t) (hsub : ∀ n ∈ d.active, n ∈ t) :
    ∃ home', Kept o home' { d with
        sealed := Function.update d.sealed m (some t)
        tmp := Function.update d.tmp m none } ∧
      ∀ k, home' k ≠ .active := by
  obtain ⟨hother, hsealed, hhome⟩ := h.alone m (by rw [ht]; exact Option.some_ne_none _)
  have hholds : Holds t (out o home) := (h.moving m t ht).of_union_of_subset hsub
  have hscrap : Holds d.active ∅ :=
    Holds.empty_iff.mpr fun n hn => h.split m t ht n hn (hsub n hn)
  have hne := SysId.other_ne m
  have hatm := h.atHome m
  -- where the entries that were packed are from now on
  obtain ⟨p, hp, hatHome⟩ : ∃ p, p ≠ .active ∧ AtHome (o m) p (some t) (d.disabled m) := by
    cases hm : home m <;> rw [hm] at hatm
    · rw [out_of_active h.apart hm] at hholds
      exact ⟨.sealed, nofun, ⟨t, rfl, hholds⟩, hatm.2⟩
    · obtain ⟨⟨c, hc, -⟩, -⟩ := hatm
      rw [hsealed] at hc
      cases hc
    · have hnone : ∀ k, home k ≠ .active := by
        rw [SysId.forall_iff m, hm]
        exact ⟨nofun, hhome⟩
      rw [out_of_none hnone] at hholds
      exact ⟨.disabled, nofun, fun c hc => by cases hc; exact hholds, hatm.2⟩
  have hnone : ∀ k, Function.update home m p k ≠ .active := by
    rw [SysId.forall_iff m, Function.update_self, Function.update_of_ne hne]
    exact ⟨hp, hhome⟩
  refine ⟨Function.update home m p, ofSettled (fun k hk => absurd hk (hnone k)) ?_ ?_ ?_, hnone⟩
  · rw [SysId.forall_iff m]
    simp only [Function.update_self, Function.update_of_ne hne]
    exact ⟨hatHome, h.atHome m.other⟩
  · unfold Data.Settled
    rw [SysId.forall_iff m]
    simp only [Function.update_self, Function.update_of_ne hne, true_and]
    exact hother
  · rw [out_of_none hnone]
    exact hscrap

/-- `mkdir -p system-p.tmp`, with the entries of the other system not outside. -/
theorem mkdirTmp (h : Kept o home d) (htmp : d.Settled) {p : SysId} (hsealed : d.sealed p = none)
    (hother : home p.other ≠ .active) : Kept o home (d.withMove p d.active ∅) := by
  refine ofMoving h.apart h.atHome (Data.withMove_tmp ..) ⟨?_, hsealed, hother⟩ ?_ ?_
  · rw [Data.withMove_tmp_other]
    exact htmp p.other
  · rw [Finmap.empty_union]
    exact h.settled htmp
  · exact fun n _ hn => absurd hn Finmap.notMem_empty

/-- `mv system-u system-u.tmp`, with nobody's entries outside. -/
theorem unsealTmp (h : Kept o home d) (htmp : d.Settled) {u : SysId} {s : Entries}
    (hs : d.sealed u = some s) (hnone : ∀ k, home k ≠ .active) :
    ∃ home', Kept o home' { d with
      sealed := Function.update d.sealed u none
      tmp := Function.update d.tmp u (some s) } := by
  have hne := SysId.other_ne u
  have hscrap := h.active_scrap htmp hnone
  have hatu := h.atHome u
  rw [hs] at hatu
  obtain ⟨p, hatHome, hout⟩ : ∃ p, AtHome (o u) p none (d.disabled u) ∧
      Holds s (out o (Function.update home u p)) := by
    cases hu : home u <;> rw [hu] at hatu
    · exact absurd hu (hnone u)
    · obtain ⟨⟨c, hc, hholds⟩, hdis⟩ := hatu
      cases hc
      refine ⟨.active, ⟨rfl, hdis⟩, ?_⟩
      have hapart : ∀ k, Function.update home u .active k = .active →
          Function.update home u .active k.other ≠ .active := by
        rw [SysId.forall_iff u, SysId.other_other, Function.update_self, Function.update_of_ne hne]
        exact ⟨fun _ => hnone _, fun hk => absurd hk (hnone _)⟩
      rwa [out_of_active hapart (Function.update_self ..)]
    · refine ⟨.disabled, ⟨nofun, hatu.2⟩, ?_⟩
      rw [← hu, Function.update_eq_self, out_of_none hnone]
      exact hatu.1 s rfl
  refine ⟨Function.update home u p, ofMoving (m := u) (t := s) ?_ ?_ (Function.update_self ..) ?_
    (hout.union hscrap) ?_⟩
  · rw [SysId.forall_iff u, SysId.other_other, Function.update_self, Function.update_of_ne hne]
    exact ⟨fun _ => hnone _, fun hk => absurd hk (hnone _)⟩
  · rw [SysId.forall_iff u]
    simp only [Function.update_self, Function.update_of_ne hne]
    exact ⟨hatHome, h.atHome u.other⟩
  · simp only [Function.update_self, Function.update_of_ne hne, true_and]
    exact ⟨htmp u.other, hnone _⟩
  · exact fun n hn _ => Holds.empty_iff.mp hscrap n hn

theorem rmdirTmp (h : Kept o home d) (u : SysId) : Kept o home (rmdirTmp u d) := by
  unfold Dualboot.rmdirTmp
  split
  · next hempty =>
      have hother := (h.alone u (by rw [hempty]; exact Option.some_ne_none _)).1
      refine ofSettled h.apart h.atHome ?_ ?_
      · unfold Data.Settled
        rw [SysId.forall_iff u]
        simp only [Function.update_self, Function.update_of_ne (SysId.other_ne u), true_and]
        exact hother
      · have hmoving := h.moving u ∅ hempty
        rwa [Finmap.empty_union] at hmoving
  · exact h

/-- The script makes a .layout_version in /data. -/
theorem insertActive (h : Kept o home d) (hnew : layoutVersion ∉ d.active) (v : Node) :
    Kept o home { d with active := d.active.insert layoutVersion v } := by
  refine { h with
    settled := fun htmp => (h.settled htmp).insert hnew v
    moving := fun m t ht => ?_
    split := fun m t ht n ha hn => ?_ }
  · have hmoving := h.moving m t ht
    by_cases hlv : layoutVersion ∈ t
    · -- the .tmp directory's is read first
      have hsame : t ∪ d.active.insert layoutVersion v = t ∪ d.active := by
        refine Finmap.ext_lookup fun n => ?_
        rw [Dir.lookup_union, Dir.lookup_union]
        by_cases hn : n = layoutVersion
        · subst hn
          obtain ⟨w, hw⟩ := Finmap.mem_iff.mp hlv
          rw [hw, Option.some_or, Option.some_or]
        · rw [Finmap.lookup_insert_of_ne _ hn]
      rwa [hsame]
    · have hsame : t ∪ d.active.insert layoutVersion v = (t ∪ d.active).insert layoutVersion v := by
        refine Finmap.ext_lookup fun n => ?_
        by_cases hn : n = layoutVersion
        · subst hn
          rw [Dir.lookup_union, Finmap.lookup_eq_none.mpr hlv, Option.none_or,
            Finmap.lookup_insert, Finmap.lookup_insert]
        · rw [Finmap.lookup_insert_of_ne _ hn, Dir.lookup_union, Dir.lookup_union,
            Finmap.lookup_insert_of_ne _ hn]
      rw [hsame]
      refine hmoving.insert ?_ v
      rw [Finmap.mem_union, not_or]
      exact ⟨hlv, hnew⟩
  · rcases Finmap.mem_insert.mp ha with hn' | ha
    · exact hn'
    · exact h.split m t ht n ha hn

/-- Another place for one system, which is not outside before or after. -/
theorem rehome (h : Kept o home d) {p : Place} {box disabledBox : Option Entries}
    (hk : home k ≠ .active) (hp : p ≠ .active) (htmp : d.tmp k = none ∨ box = none)
    (hatHome : AtHome (o k) p box disabledBox) :
    Kept o (Function.update home k p) { d with
      sealed := Function.update d.sealed k box
      disabled := Function.update d.disabled k disabledBox } := by
  have hne := SysId.other_ne k
  have hsame : ∀ j, Function.update home k p j = .active ↔ home j = .active := by
    rw [SysId.forall_iff k, Function.update_self, Function.update_of_ne hne]
    exact ⟨⟨fun h => absurd h hp, fun h => absurd h hk⟩, Iff.rfl⟩
  have hout : out o (Function.update home k p) = out o home := by
    unfold out
    simp only [hsame]
  constructor
  case apart =>
    intro j
    rw [Ne, hsame, hsame]
    exact h.apart j
  case atHome =>
    rw [SysId.forall_iff k]
    simp only [Function.update_self, Function.update_of_ne hne]
    exact ⟨hatHome, h.atHome k.other⟩
  case alone =>
    intro m hm
    obtain ⟨hother, hsealed, hhome⟩ := h.alone m hm
    refine ⟨hother, ?_, by rwa [Ne, hsame]⟩
    show Function.update d.sealed k box m = none
    rw [Function.update_apply]
    split
    · next hmk =>
        subst hmk
        exact htmp.resolve_left hm
    · exact hsealed
  case settled =>
    rw [hout]
    exact h.settled
  case moving =>
    rw [hout]
    exact h.moving
  case split => exact h.split

theorem disableSealed (h : Kept o home d) (k : SysId) :
    ∃ home', Kept o home' (disableSealed k d) := by
  unfold Dualboot.disableSealed
  split
  · next s hs hdis =>
      have hatk := h.atHome k
      rw [hs, hdis] at hatk
      cases hk : home k <;> rw [hk] at hatk
      · cases hatk.1
      · obtain ⟨⟨c, hc, hholds⟩, -⟩ := hatk
        cases hc
        exact ⟨_, h.rehome (p := .disabled) (by rw [hk]; exact nofun) nofun (.inr rfl)
          ⟨nofun, s, rfl, hholds⟩⟩
      · obtain ⟨-, c, hc, -⟩ := hatk
        cases hc
  · exact ⟨home, h⟩

/-- Afterwards a system's entries are disabled only if a system-k of scrap was
in the way. -/
theorem enableSealed (h : Kept o home d) (htmp : d.Settled) (k : SysId) :
    ∃ home', Kept o home' (enableSealed k d) ∧ (enableSealed k d).Settled ∧
      (enableSealed k d).sealed k.other = d.sealed k.other ∧
      home' k.other = home k.other ∧
      (home' k = .active ↔ home k = .active) ∧
      (home' k = .disabled → (enableSealed k d).sealed k = d.sealed k ∧ d.sealed k ≠ none) := by
  unfold Dualboot.enableSealed
  have hne := SysId.other_ne k
  split
  · next s hdis hs =>
      have hatk := h.atHome k
      rw [hs, hdis] at hatk
      cases hk : home k <;> rw [hk] at hatk
      · cases hatk.2
      · cases hatk.2
      · obtain ⟨-, c, hc, hholds⟩ := hatk
        cases hc
        refine ⟨_, h.rehome (p := .sealed) (by rw [hk]; exact nofun) nofun (.inl (htmp k))
          ⟨⟨s, rfl, hholds⟩, rfl⟩, htmp, Function.update_of_ne hne .., Function.update_of_ne hne ..,
          ?_, ?_⟩
        · rw [Function.update_self]
          exact ⟨nofun, nofun⟩
        · intro hdisabled
          rw [Function.update_self] at hdisabled
          cases hdisabled
  · next hnot =>
      refine ⟨home, h, htmp, rfl, rfl, Iff.rfl, fun hdisabled => ⟨rfl, fun hs => ?_⟩⟩
      have hatk := h.atHome k
      rw [hdisabled] at hatk
      obtain ⟨-, c, hc, -⟩ := hatk
      exact hnot c hc hs

/-- A .layout_version in a system-k that is nobody's. -/
theorem insertScrap (h : Kept o home d) (htmp : d.Settled) (hk : home k = .disabled)
    {c : Entries} (hc : Holds c ∅) :
    Kept o home { d with sealed := Function.update d.sealed k (some c) } := by
  have hatk := h.atHome k
  rw [hk] at hatk
  have hnew : Kept o (Function.update home k .disabled) { d with
      sealed := Function.update d.sealed k (some c)
      disabled := Function.update d.disabled k (d.disabled k) } :=
    h.rehome (by rw [hk]; exact nofun) nofun (.inl (htmp k))
      ⟨fun c' hc' => by cases hc'; exact hc, hatk.2⟩
  rwa [← hk, Function.update_eq_self, Function.update_eq_self] at hnew

end Kept

end Pisces.Dualboot
