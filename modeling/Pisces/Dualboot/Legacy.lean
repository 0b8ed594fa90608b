import Pisces.Dualboot.Rules

/-!
# Legacy directories

An older version of the script kept the data of a system that is not running in
/data/system0 or /data/system1. `dualdata_open` still takes a directory of that
name for such data: it removes it when it is empty or when the system has
another one sealed, and else makes it the sealed one. With no move under way
that, and the removal of empty sealed directories, is all that opening does.
-/

namespace Pisces.Dualboot

open Pisces.Lib Pisces.Lib.Script

variable {d : Data} {w : World} {k : SysId} {env : Env}

/-- What system `k` has put away, if anything: system-k, or else the legacy
directory that would become it. -/
def Data.stored (d : Data) (k : SysId) : Option Entries :=
  if d.sealed k = none ∨ d.sealed k = some ∅ then
    match d.legacyDir k with
    | none | some [] => none
    | some es => some (.ofList es)
  else d.sealed k

/-- `dualdata_migrate` -/
def migrate (k : SysId) (d : Data) : Data :=
  if (d.legacyDir k).isSome then
    if (d.sealed k).isSome then removeLegacy k d else mvLegacySealed k d
  else d

/-- /data when the moves are to be finished. -/
def prepared (d : Data) : Data := rmdirLegacy .two (rmdirLegacy .one (cleaned d))

theorem legacyName_ne {j : SysId} (h : j ≠ k) : legacyName j ≠ legacyName k := by
  cases j <;> cases k <;> first | decide | exact absurd rfl h

theorem legacyDir_erase_self (d : Data) (k : SysId) :
    Data.legacyDir { d with active := d.active.erase (legacyName k) } k = none := by
  rw [Data.legacyDir, Finmap.lookup_erase]

theorem legacyDir_erase_of_ne {j : SysId} (h : j ≠ k) (s : SysId → Option Entries) :
    Data.legacyDir { d with active := d.active.erase (legacyName k), sealed := s } j =
      d.legacyDir j := by
  rw [Data.legacyDir, Data.legacyDir, Finmap.lookup_erase_ne (legacyName_ne h)]

theorem rmdirLegacy_legacyDir (d : Data) (j k : SysId) :
    (rmdirLegacy k d).legacyDir j =
      if j = k ∧ d.legacyDir j = some [] then none else d.legacyDir j := by
  unfold rmdirLegacy
  by_cases hj : j = k
  · subst hj
    split
    · next hempty => rw [legacyDir_erase_self, if_pos ⟨rfl, hempty⟩]
    · next hno => rw [if_neg fun h => hno h.2]
  · rw [if_neg fun h => hj h.1]
    split
    · exact legacyDir_erase_of_ne hj d.sealed
    · rfl

theorem rmdirLegacy_mem {n : Name} : n ∈ (rmdirLegacy k d).active ↔
    n ∈ d.active ∧ ¬ (n = legacyName k ∧ d.legacyDir k = some []) := by
  unfold rmdirLegacy
  split
  · next hempty =>
      rw [Finmap.mem_erase, and_comm, and_iff_left hempty]
  · next hno =>
      exact ⟨fun hn => ⟨hn, fun h => hno h.2⟩, fun h => h.1⟩

@[simp] theorem rmdirLegacy_sealed (k : SysId) (d : Data) :
    (rmdirLegacy k d).sealed = d.sealed := by
  unfold rmdirLegacy
  split <;> rfl

@[simp] theorem rmdirLegacy_tmp (k : SysId) (d : Data) : (rmdirLegacy k d).tmp = d.tmp := by
  unfold rmdirLegacy
  split <;> rfl

theorem prepared_tmp (d : Data) : (prepared d).tmp = d.tmp := by
  rw [prepared, rmdirLegacy_tmp, rmdirLegacy_tmp, cleaned_tmp]

theorem prepared_sealed (d : Data) (k : SysId) :
    (prepared d).sealed k = if d.sealed k = some ∅ then none else d.sealed k := by
  rw [prepared, rmdirLegacy_sealed, rmdirLegacy_sealed, cleaned_sealed]

theorem prepared_legacyDir (d : Data) (k : SysId) :
    (prepared d).legacyDir k = if d.legacyDir k = some [] then none else d.legacyDir k := by
  rw [prepared, rmdirLegacy_legacyDir, rmdirLegacy_legacyDir, legacyDir_congr (cleaned_active d)]
  cases k <;> simp

theorem prepared_mem {n : Name} : n ∈ (prepared d).active ↔
    n ∈ d.active ∧ ∀ k, n = legacyName k → d.legacyDir k ≠ some [] := by
  rw [prepared, rmdirLegacy_mem, rmdirLegacy_mem, rmdirLegacy_legacyDir,
    legacyDir_congr (cleaned_active d), legacyDir_congr (cleaned_active d), cleaned_active,
    SysId.forall_iff .one]
  simp [SysId.other, and_assoc]

theorem migrate_cases (k : SysId) (d : Data) :
    (d.legacyDir k = none ∧ migrate k d = d) ∨
    ∃ es s, d.legacyDir k = some es ∧ (d.sealed k).or (some (.ofList es)) = some s ∧
      migrate k d = { d with
        active := d.active.erase (legacyName k)
        sealed := Function.update d.sealed k (some s) } := by
  unfold migrate
  cases hes : d.legacyDir k with
  | none => exact .inl ⟨rfl, rfl⟩
  | some es =>
      right
      cases hs : d.sealed k with
      | none =>
          refine ⟨es, .ofList es, rfl, rfl, ?_⟩
          rw [mvLegacySealed, hes]
          rfl
      | some s =>
          have hsame : Function.update d.sealed k (some s) = d.sealed := by
            rw [← hs, Function.update_eq_self]
          refine ⟨es, s, rfl, rfl, ?_⟩
          rw [hsame]
          rfl

theorem migrate_tmp (k : SysId) (d : Data) : (migrate k d).tmp = d.tmp := by
  rcases migrate_cases k d with ⟨-, h⟩ | ⟨es, s, -, -, h⟩ <;> rw [h]

theorem migrate_legacyDir (d : Data) (j k : SysId) :
    (migrate k d).legacyDir j = if j = k then none else d.legacyDir j := by
  rcases migrate_cases k d with ⟨hnone, h⟩ | ⟨es, s, -, -, h⟩ <;> rw [h]
  · split
    · next hj => rw [hj, hnone]
    · rfl
  · split
    · next hj =>
        subst hj
        rw [Data.legacyDir, Finmap.lookup_erase]
    · next hj => exact legacyDir_erase_of_ne hj _

theorem migrate_sealed (d : Data) (j k : SysId) :
    (migrate k d).sealed j =
      if j = k then (d.sealed j).or ((d.legacyDir j).map .ofList) else d.sealed j := by
  rcases migrate_cases k d with ⟨hnone, h⟩ | ⟨es, s, hes, hs, h⟩ <;> rw [h]
  · split
    · next hj => rw [hj, hnone, Option.map_none, Option.or_none]
    · rfl
  · split
    · next hj =>
        subst hj
        rw [hes, Option.map_some, hs]
        exact Function.update_self ..
    · next hj => exact Function.update_of_ne hj _ _

theorem migrate_mem {n : Name} (hn : n ∈ (migrate k d).active) :
    n ∈ d.active ∧ (n = legacyName k → d.legacyDir k = none) := by
  rcases migrate_cases k d with ⟨hnone, h⟩ | ⟨es, s, -, -, h⟩ <;> rw [h] at hn
  · exact ⟨hn, fun _ => hnone⟩
  · obtain ⟨hne, hmem⟩ := Finmap.mem_erase.mp hn
    exact ⟨hmem, fun heq => absurd heq hne⟩

/-- /data when no move is under way and the legacy directories are migrated. -/
def migrated (d : Data) : Data := migrate .two (migrate .one (prepared d))

theorem migrated_sealed (d : Data) (k : SysId) : (migrated d).sealed k = d.stored k := by
  have hstored : d.stored k =
      ((prepared d).sealed k).or (((prepared d).legacyDir k).map .ofList) := by
    rw [prepared_sealed, prepared_legacyDir, Data.stored]
    by_cases hs : d.sealed k = none ∨ d.sealed k = some ∅
    · have hnone : (if d.sealed k = some ∅ then none else d.sealed k) = none := by
        rcases hs with hs | hs <;> rw [hs] <;> rfl
      rw [if_pos hs, hnone, Option.none_or]
      rcases d.legacyDir k with _ | _ | _ <;> rfl
    · rw [not_or] at hs
      obtain ⟨s, hsome⟩ := Option.ne_none_iff_exists'.mp hs.1
      rw [if_neg (not_or.mpr hs), if_neg hs.2, hsome, Option.some_or]
  rw [migrated, migrate_sealed, migrate_sealed, migrate_legacyDir, hstored]
  cases k <;> rfl

/-- `x` is a directory that opening removes or migrates. -/
def Data.IsLegacy (d : Data) (x : Name) : Prop := ∃ k, x = legacyName k ∧ d.legacyDir k ≠ none

theorem migrated_mem {n : Name} (hn : n ∈ (migrated d).active) :
    n ∈ d.active ∧ ¬ d.IsLegacy n := by
  obtain ⟨hn, htwo⟩ := migrate_mem hn
  obtain ⟨hn, hone⟩ := migrate_mem hn
  rw [migrate_legacyDir, if_neg (by decide)] at htwo
  obtain ⟨hmem, hempty⟩ := prepared_mem.mp hn
  refine ⟨hmem, ?_⟩
  rintro ⟨k, hk, hdir⟩
  have hprep : (prepared d).legacyDir k = none := by
    cases k with
    | one => exact hone hk
    | two => exact htwo hk
  rw [prepared_legacyDir, if_neg (hempty k hk)] at hprep
  exact hdir hprep

theorem rmdirLegacy_lookup {x : Name} (hx : ¬ d.IsLegacy x) :
    (rmdirLegacy k d).active.lookup x = d.active.lookup x ∧ ¬ (rmdirLegacy k d).IsLegacy x := by
  constructor
  · unfold rmdirLegacy
    split
    · next hempty =>
        refine Finmap.lookup_erase_ne fun heq => hx ⟨k, heq, ?_⟩
        rw [hempty]
        exact Option.some_ne_none _
    · rfl
  · rintro ⟨j, rfl, hj⟩
    rw [rmdirLegacy_legacyDir] at hj
    split at hj
    · exact hj rfl
    · exact hx ⟨j, rfl, hj⟩

theorem migrate_lookup {x : Name} (hx : ¬ d.IsLegacy x) :
    (migrate k d).active.lookup x = d.active.lookup x ∧ ¬ (migrate k d).IsLegacy x := by
  constructor
  · rcases migrate_cases k d with ⟨-, h⟩ | ⟨es, s, hes, -, h⟩ <;> rw [h]
    refine Finmap.lookup_erase_ne fun heq => hx ⟨k, heq, ?_⟩
    rw [hes]
    exact Option.some_ne_none _
  · rintro ⟨j, rfl, hj⟩
    rw [migrate_legacyDir] at hj
    split at hj
    · exact hj rfl
    · exact hx ⟨j, rfl, hj⟩

/-- Other entries stay active. -/
theorem migrated_lookup {x : Name} (hx : ¬ d.IsLegacy x) :
    (migrated d).active.lookup x = d.active.lookup x := by
  have hclean : ¬ (cleaned d).IsLegacy x := by
    rintro ⟨k, hk, hdir⟩
    rw [legacyDir_congr (cleaned_active d)] at hdir
    exact hx ⟨k, hk, hdir⟩
  obtain ⟨h₁, hx₁⟩ := rmdirLegacy_lookup (k := .one) hclean
  obtain ⟨h₂, hx₂⟩ := rmdirLegacy_lookup (k := .two) hx₁
  obtain ⟨h₃, hx₃⟩ := migrate_lookup (k := .one) hx₂
  obtain ⟨h₄, -⟩ := migrate_lookup (k := .two) hx₃
  rw [cleaned_active] at h₁
  exact (((h₄.trans h₃).trans h₂).trans h₁)

theorem migrated_tmp (d : Data) : (migrated d).tmp = d.tmp := by
  rw [migrated, migrate_tmp, migrate_tmp, prepared_tmp]

theorem migrate_eq_self (h : d.legacyDir k = none) : migrate k d = d := by
  rcases migrate_cases k d with ⟨-, heq⟩ | ⟨es, s, hes, -, -⟩
  · exact heq
  · rw [h] at hes
    cases hes

/-! ## Opening with no move under way -/

theorem dualdataMigrate_spec (k : SysId) :
    (dualdataMigrate k).wp (fun _ w' => w' = w.updateData (migrate k))
      (fun why w' => why = .killed ∧ w' = w) w := by
  have hdone : ∀ {f : Data → Data}, f w.data = migrate k w.data →
      w.updateData f = w.updateData (migrate k) := by
    intro f hf
    rw [World.updateData, hf, World.updateData]
  refine wp_when (fun hlegacy => wp_branch (fun hs => ⟨⟨rfl, rfl⟩, hdone ?_⟩)
    fun hs => ⟨⟨rfl, rfl⟩, hdone ?_⟩) fun hlegacy => ?_
  · rw [migrate, if_pos hlegacy, if_pos hs]
  · rw [migrate, if_pos hlegacy, if_neg (by rw [hs]; exact Bool.false_ne_true)]
  · have hid : id w.data = migrate k w.data := by
      rw [migrate, if_neg (by rw [hlegacy]; exact Bool.false_ne_true)]
      rfl
    exact hdone hid

theorem dualdataOpen_settled (hsettled : w.data.Settled) :
    (dualdataOpen env).wp
      (fun _ w' => w'.data = migrated w.data ∧ w'.misc = w.misc ∧ w'.clashes = w.clashes ∧
        w'.whose = w.whose ∧ w'.enabled = w'.data.hasSealed)
      (fun why _ => why = .exit → Blocked env w) w := by
  rw [dualdataOpen, wp_bind]
  refine wp_mono bindData_spec ?_ fun _ _ h => h.2
  rintro _ w₁ ⟨hw₁, hen, -⟩
  have hskip : ∀ k, (prepared w₁.data).tmp k = none := by
    intro k
    rw [prepared_tmp, hw₁.data]
    exact hsettled k
  have hkilled : ∀ why, why = Stop.killed → why = .exit → Blocked env w := by
    rintro _ rfl
    exact Stop.of_killed_eq_exit
  rw [wp_bind, wp_forM_all, wp_opData, wp_opData]
  refine ⟨Stop.of_killed_eq_exit, Stop.of_killed_eq_exit, ?_⟩
  rw [wp_bind, wp_forM_all, wp_opData, wp_opData]
  refine ⟨Stop.of_killed_eq_exit, Stop.of_killed_eq_exit, ?_⟩
  rw [wp_bind, wp_forM_all]
  refine finishMove_skip (hskip .one) (finishMove_skip (hskip .two) ?_)
  rw [wp_bind, wp_forM_all]
  refine wp_mono (dualdataMigrate_spec .one) ?_ fun why _ h => hkilled why h.1
  rintro _ _ rfl
  refine wp_mono (dualdataMigrate_spec .two) ?_ fun why _ h => hkilled why h.1
  rintro _ _ rfl
  have hdata : migrate .two (migrate .one (prepared w₁.data)) = migrated w.data := by
    rw [hw₁.data]
    rfl
  refine wp_when ?_ fun hnone =>
    ⟨hdata, hw₁.misc, hw₁.clashes, hw₁.whose, hen.trans hnone.symm⟩
  exact fun hsome =>
    ⟨Stop.of_killed_eq_exit, hdata, hw₁.misc, hw₁.clashes, hw₁.whose, hsome.symm⟩

end Pisces.Dualboot
