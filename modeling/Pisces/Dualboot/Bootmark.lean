import Pisces.Dualboot.Enabled
import Pisces.Dualboot.CrashSafe

/-!
# A switch that fails

`do_set` and `recovery_save` write the bootmark first and change /data last,
with an exit in between for every command that can fail. So a switch to the
other system that fails after the bootmark leaves the next boot with one system
and the other one's data.
-/

namespace Pisces.Dualboot

open Pisces.Lib Pisces.Lib.Script

/-! ## The bootmark -/

theorem readMisc_writeMisc (k : SysId) (misc : Nat → UInt8) :
    readMisc (writeMisc (bootmark k) misc) = bootmark k := by
  have hread : readMisc (writeMisc (bootmark k) misc) =
      (List.range bootmarkCount).map fun i => (bootmark k).getD i 0 := by
    refine List.map_congr_left fun i hi => ?_
    rw [List.mem_range] at hi
    rw [writeMisc, if_pos ⟨Nat.le_add_right _ _, Nat.add_lt_add_left hi _⟩,
      Nat.add_sub_cancel_left]
  rw [hread]
  cases k <;> decide

theorem dualbootRead_writeMisc (k : SysId) (misc : Nat → UInt8) :
    dualbootRead (writeMisc (bootmark k) misc) = k := by
  rw [dualbootRead, readMisc_writeMisc]
  cases k <;> decide

theorem writeMisc_outside {mark : List UInt8} {misc : Nat → UInt8} {i : Nat}
    (h : i < 4096 ∨ 4108 < i) : writeMisc mark misc i = misc i := by
  rw [writeMisc, if_neg]
  rintro ⟨hle, hlt⟩
  rw [bootmarkOffset] at hle hlt
  rw [bootmarkCount] at hlt
  omega

/-! ## What a switch is to do -/

/-- The entries of the two systems: system `q`'s are `s`, and the active ones
are the other's. -/
def owned (q : SysId) (s a : Entries) (k : SysId) : Entries := if k = q then s else a

/-- A switch to system `n` that exits has changed nothing of what boots, and one
that ends has changed all of it, and no other byte of misc. -/
def SwitchOk (o : SysId → Entries) (n : SysId) (w : World) : Outcome World Unit → Prop
  | .stopped _ w' =>
      dualbootRead w'.misc = dualbootRead w.misc ∧
      Holds w'.data.active (o (dualbootRead w.misc))
  | .done _ w' =>
      dualbootRead w'.misc = n ∧ Holds w'.data.active (o n) ∧
      ∀ i, i < 4096 ∨ 4108 < i → w'.misc i = w.misc i

theorem holds_versioned (a : Entries) : Holds (versioned a) a := by
  unfold versioned
  split
  · exact .refl a
  · next hnew => exact (Holds.refl a).insert hnew _

variable {q n : SysId} {s : Entries} {env : Env} {w : World}

theorem doSet_ddFails (hdd : env.fails .dd = true) :
    (doSet env (some n)).run none w = .stopped .exit w := by
  rw [doSet, dualbootWrite]
  simp only [hdd]
  rfl

/-- After the bootmark, a command that fails. -/
theorem doSet_fails (hdd : env.fails .dd = false) (hbinds : w.binds = 0) (hfails : ¬ Works env) :
    ∃ w', (doSet env (some n)).run none w = .stopped .exit w' ∧
      w'.misc = writeMisc (bootmark n) w.misc ∧ w'.data = w.data := by
  have hwp : (doSet env (some n)).wp (fun _ _ => False)
      (fun why w' => why = .exit →
        w'.misc = writeMisc (bootmark n) w.misc ∧ w'.data = w.data) w := by
    rw [doSet, dualbootWrite]
    simp only [hdd, wp_bind]
    refine ⟨Stop.of_killed_eq_exit, ?_⟩
    refine bootInto_reaches hbinds ?_ fun hworks => absurd hworks hfails
    exact fun _ w' hsame _ _ => ⟨hsame.misc, hsame.data⟩
  exact run_none_exits hwp

theorem switch_misc (n : SysId) (misc : Nat → UInt8) :
    Keeps (fun w => w.misc = misc) (dualdataSwitchtodata (some n)) := by
  have hpack : ∀ m x (w : World), (packEntry m x w).misc = w.misc := by
    intro m x w
    unfold packEntry
    split <;> rfl
  have hunpack : ∀ m x (w : World), (unpackEntry m x w).misc = w.misc := by
    intro m x w
    unfold unpackEntry
    split
    · rfl
    · split <;> rfl
  refine .when (.bind (.when (.bind (.op fun _ h => h) fun _ => .bind ?_ fun _ => .op ?_)) fun _ =>
    .bind (.bind (.when (.op fun _ h => h)) fun _ => .when (.bind ?_ fun _ => .op fun _ h => h))
      fun _ => ?_)
  · exact .bind (.get _) fun _ => .forM fun x _ => .op fun w h => (hpack _ x w).trans h
  · exact fun w h => (mvTmpSealed_frame _ w).1.trans h
  · exact .bind (.get _) fun _ => .forM fun x _ => .op fun w h => (hunpack _ x w).trans h
  · exact .when (.branch (.bind (.get _) fun _ => .bind (.op fun _ h => h) fun _ =>
      .op fun _ h => h) (.op fun _ h => h))

/-- No command fails. What the switch makes of /data it makes of what opening
leaves. -/
theorem doSet_works {R : Data → Prop} (h : Enabled q s w.data) (hdd : env.fails .dd = false)
    (hbinds : w.binds = 0) (hworks : Works env)
    (hswitch : ∀ w₁ : World, w₁.data = migrated w.data → w₁.enabled = true →
      (dualdataSwitchtodata (some n)).wp (fun _ w' => R w'.data) (fun _ _ => True) w₁) :
    ∃ w', (doSet env (some n)).run none w = .done () w' ∧
      w'.misc = writeMisc (bootmark n) w.misc ∧ R w'.data := by
  have hwp : (doSet env (some n)).wp
      (fun _ w' => w'.misc = writeMisc (bootmark n) w.misc ∧ R w'.data)
      (fun why _ => why = .exit → False) w := by
    rw [doSet, dualbootWrite]
    simp only [hdd, wp_bind]
    refine ⟨Stop.of_killed_eq_exit, ?_⟩
    refine bootInto_reaches hbinds (fun _ w' _ hexit hwhy => hexit hwhy hworks) ?_
    intro _ w₁ hw₁ hmounted hbinds₁
    have hdata : w₁.data = w.data := hw₁.data
    have hfree : ¬ Blocked env w₁ := by
      rintro (hno | hno)
      · rw [hmounted] at hno
        cases hno
      · rw [hbinds₁, hworks.bind] at hno
        cases hno
    have hopen := @dualdataOpen_sees q s env w₁ (by rwa [hdata])
    rw [wp_bind]
    refine wp_mono hopen ?_ fun _ _ hexit hwhy => hfree (hexit hwhy)
    rintro _ w₂ ⟨hdata₂, hmisc₂, -, -, hen₂⟩
    have hR := hswitch w₂ (by rw [hdata₂, hdata]) hen₂
    have hall := wp_and hR (wp_and (switch_noExit n w₂) (switch_misc n w₂.misc w₂ rfl))
    rw [wp_bind]
    refine wp_mono hall ?_ ?_
    · rintro _ w₃ ⟨hR₃, -, hmisc₃⟩
      exact ⟨Stop.of_killed_eq_exit, hmisc₃.trans (hmisc₂.trans hw₁.misc), hR₃⟩
    · rintro _ w₃ ⟨-, hkilled, -⟩ hexit
      rw [hkilled] at hexit
      cases hexit
  obtain ⟨_, w', hdone, hw'⟩ := run_none_done hwp not_false
  exact ⟨w', hdone, hw'⟩

/-! ## When nothing fails -/

/-- Every active entry but a legacy directory makes room for one of `s` with its
name, or is that one, or is a .layout_version. -/
def Covered (s : Entries) (d : Data) : Prop :=
  ∀ x v, d.active.lookup x = some v → d.IsLegacy x ∨ (x = layoutVersion ∧ x ∉ s) ∨
    ∃ v', s.lookup x = some v' ∧ (v'.replaces v = true ∨ v' = v)

/-- What is asked of /data for a switch to `n` when system `q` has `s` sealed:
for the system that is active, no legacy directory; for the other, no media, and
if the active system's legacy directory would be taken for its data, nothing
active that would stay beside what comes out. -/
def Undamaged (q : SysId) (s : Entries) (n : SysId) (d : Data) : Prop :=
  if n = q then "media" ∉ s ∧ (d.stored q.other ≠ none → Covered s d)
  else ∀ k, d.legacyDir k = none

/-- A directory does not hold itself. -/
theorem lookup_ofList_ne {es : List (Name × Node)} (x : Name) :
    (Entries.ofList es).lookup x ≠ some (.dir es) := by
  intro h
  have hmem : (x, Node.dir es) ∈ es := by
    rw [Entries.ofList, Finmap.dlookup_list_toFinmap] at h
    obtain ⟨⟨y, node⟩, he, heq⟩ := List.mem_map.mp (List.of_mem_dlookup h)
    cases heq
    exact he
  have hlt := List.sizeOf_lt_of_mem hmem
  simp only [Prod.mk.sizeOf_spec, Node.dir.sizeOf_spec] at hlt
  omega

/-- What comes out of system-q beside `a` is all of it and no more. -/
theorem holds_beside_iff {a a' t' : Entries} (hpart : Dir.Partway Node.replaces s a [] t' a') :
    Holds (versioned a') s ↔ ∀ x v, a.lookup x = some v → (x = layoutVersion ∧ x ∉ s) ∨
      ∃ v', s.lookup x = some v' ∧ (v'.replaces v = true ∨ v' = v) := by
  have hversioned : Holds (versioned a') a' := holds_versioned a'
  constructor
  · intro h x v hv
    have hmem : x ∈ a' := by
      by_cases hx : x ∈ t'
      · exact (hpart.mem_dst hx).mpr (Finmap.mem_of_lookup_eq_some hv)
      · rw [← Finmap.lookup_isSome, hpart.gone x hx, Option.isSome_or, hv]
        exact Bool.or_true _
    obtain ⟨u, hu⟩ := Finmap.mem_iff.mp hmem
    have hu' := hversioned.kept x u hu
    by_cases hs : x ∈ s
    · obtain ⟨v', hv'⟩ := Finmap.mem_iff.mp hs
      have huv : u = v' := Option.some.inj (hu'.symm.trans (h.kept x v' hv'))
      refine .inr ⟨v', hv', ?_⟩
      by_cases hx : x ∈ t'
      · -- it was refused, and still the entry there is the right one
        rw [(hpart.stay x hx).2, hv, Option.some.injEq] at hu
        exact .inr (huv.symm.trans hu.symm)
      · left
        by_contra hno
        exact hx (hpart.kept x ⟨v', v, hv', hv, Bool.eq_false_iff.mpr hno⟩)
    · exact .inl ⟨(h.only x (Finmap.mem_of_lookup_eq_some hu')).resolve_left hs, hs⟩
  · intro h
    constructor
    · intro x v' hv'
      refine hversioned.kept x v' ?_
      by_cases hx : x ∈ t'
      · rcases hpart.left x hx with hnil | ⟨u, old, hu, hold, hno⟩
        · cases hnil
        · rw [hv', Option.some.injEq] at hu
          subst hu
          rcases h x old hold with ⟨-, hs⟩ | ⟨u, hu, hr⟩
          · exact absurd (Finmap.mem_of_lookup_eq_some hv') hs
          · rw [hv', Option.some.injEq] at hu
            subst hu
            rcases hr with hr | hr
            · rw [hno] at hr
              cases hr
            · rw [(hpart.stay x hx).2, hold, hr]
      · rw [hpart.gone x hx, hv', Option.some_or]
    · intro x hx
      rcases hversioned.only x hx with hx | hx
      · rcases hpart.mem_either hx with hs | ha
        · exact .inl hs
        · obtain ⟨v, hv⟩ := Finmap.mem_iff.mp ha
          rcases h x v hv with ⟨hlv, -⟩ | ⟨v', hv', -⟩
          · exact .inr hlv
          · exact .inl (Finmap.mem_of_lookup_eq_some hv')
      · exact .inr hx

theorem covered_iff : Covered s w.data ↔ ∀ x v, (migrated w.data).active.lookup x = some v →
    (x = layoutVersion ∧ x ∉ s) ∨ ∃ v', s.lookup x = some v' ∧ (v'.replaces v = true ∨ v' = v) := by
  constructor
  · intro h x v hv
    have hnot := (migrated_mem (Finmap.mem_of_lookup_eq_some hv)).2
    rw [migrated_lookup hnot] at hv
    exact (h x v hv).resolve_left hnot
  · intro h x v hv
    by_cases hx : w.data.IsLegacy x
    · exact .inl hx
    · rw [← migrated_lookup hx] at hv
      exact .inr (h x v hv)

/-- With nothing put away for the other system, opening leaves dual data on. -/
theorem Enabled.migrated (h : Enabled q s w.data) (hstored : w.data.stored q.other = none) :
    Enabled q s (migrated w.data) where
  sealed := by rw [migrated_sealed, h.stored_eq]
  nonempty := h.nonempty
  other := by rw [migrated_sealed, hstored]
  settled := by
    unfold Data.Settled
    rw [migrated_tmp]
    exact h.settled

/-- The system that is active loses a legacy directory. -/
theorem switch_loses {k : SysId} {es : List (Name × Node)} {w₁ : World} (h : Enabled q s w.data)
    (hes : w.data.legacyDir k = some es) (hw₁ : w₁.data = Dualboot.migrated w.data) :
    (dualdataSwitchtodata (some q.other)).wp (fun _ w' => ¬ Holds w'.data.active w.data.active)
      (fun _ _ => True) w₁ := by
  -- one that has become the sealed directory is the one to look for
  obtain ⟨j, es', hes', hsealed⟩ : ∃ j es', w.data.legacyDir j = some es' ∧
      ∀ e, (Dualboot.migrated w.data).sealed q.other = some e →
        e.lookup (legacyName j) ≠ some (.dir es') := by
    cases hstored : w.data.stored q.other with
    | none =>
        refine ⟨k, es, hes, fun e he => ?_⟩
        rw [migrated_sealed, hstored] at he
        cases he
    | some e =>
        obtain ⟨es', hes', heq⟩ : ∃ es', w.data.legacyDir q.other = some es' ∧ e = .ofList es' := by
          rw [Data.stored, if_pos (.inl h.other)] at hstored
          split at hstored
          · cases hstored
          · cases hstored
          · next es' _ hes' => exact ⟨es', hes', (Option.some.inj hstored).symm⟩
        refine ⟨q.other, es', hes', fun e' he' => ?_⟩
        rw [migrated_sealed, hstored, Option.some.injEq] at he'
        rw [← he', heq]
        exact lookup_ofList_ne _
  have hactive : w.data.active.lookup (legacyName j) = some (.dir es') := by
    rw [Data.legacyDir] at hes'
    split at hes'
    · next es'' hlookup =>
        rw [hlookup]
        cases hes'
        rfl
    · cases hes'
  have hgone : (Dualboot.migrated w.data).active.lookup (legacyName j) = none := by
    rw [Finmap.lookup_eq_none]
    intro hn
    refine (migrated_mem hn).2 ⟨j, rfl, ?_⟩
    rw [hes']
    exact Option.some_ne_none _
  have hlv : legacyName j ≠ layoutVersion := by cases j <;> decide
  refine wp_mono (switch_lacks (v := .dir es') hlv w₁ ⟨?_, ?_, ?_⟩) ?_ fun _ _ _ => trivial
  · rw [hw₁, hgone]
    exact (Option.some_ne_none _).symm
  · rw [hw₁]
    exact hsealed
  · intro e he
    rw [hw₁, migrated_tmp, h.settled] at he
    cases he
  · rintro _ w' ⟨hlacks, -⟩ hholds
    exact hlacks (hholds.kept _ _ hactive)

theorem switch_holds_iff {w₁ : World} (h : Enabled q s w.data) (hmedia : "media" ∉ w.data.active)
    (hw₁ : w₁.data = Dualboot.migrated w.data) (hen : w₁.enabled = true) :
    (dualdataSwitchtodata (some n)).wp
      (fun _ w' => Holds w'.data.active (owned q s w.data.active n) ↔ Undamaged q s n w.data)
      (fun _ _ => True) w₁ := by
  have hne := SysId.other_ne q
  rcases SysId.eq_or_other q n with rfl | rfl
  · rw [Undamaged, if_pos rfl, owned, if_pos rfl]
    by_cases hs : "media" ∈ s
    · have hnone : "media" ∉ w₁.data.active := by
        rw [hw₁]
        exact fun hn => hmedia (migrated_mem hn).1
      refine wp_mono (switch_noMedia n w₁ hnone) ?_ fun _ _ _ => trivial
      intro _ w' hw'
      refine iff_of_false (fun hholds => hw' ?_) fun hno => hno.1 hs
      obtain ⟨v, hv⟩ := Finmap.mem_iff.mp hs
      exact Finmap.mem_of_lookup_eq_some (hholds.kept _ _ hv)
    · cases hstored : w.data.stored n.other with
      | none =>
          have h₁ : Enabled n s w₁.data := by rw [hw₁]; exact h.migrated hstored
          refine wp_mono (switch_swap h₁ hs hen) ?_ fun _ _ _ => trivial
          intro _ w' hw'
          rw [hw'.active]
          exact iff_of_true (holds_versioned s) ⟨hs, fun hno => absurd rfl hno⟩
      | some e =>
          have hother : w₁.data.sealed n.other ≠ none := by
            rw [hw₁, migrated_sealed, hstored]
            exact Option.some_ne_none e
          have hsealed : w₁.data.sealed n = some s := by rw [hw₁, migrated_sealed, h.stored_eq]
          have hsettled : w₁.data.Settled := by
            unfold Data.Settled
            rw [hw₁, migrated_tmp]
            exact h.settled
          refine wp_mono (switch_beside hen hsettled hother hsealed hs) ?_ fun _ _ _ => trivial
          rintro _ w' ⟨-, a', t', hpart, hactive⟩
          rw [hactive, holds_beside_iff hpart, hw₁, ← covered_iff]
          exact ⟨fun hc => ⟨hs, fun _ => hc⟩, fun hu => hu.2 (Option.some_ne_none e)⟩
  · rw [Undamaged, if_neg hne, owned, if_neg hne]
    by_cases hlegacy : ∀ k, w.data.legacyDir k = none
    · have h₁ : Enabled q s w₁.data := by rw [hw₁, h.migrated_eq hlegacy]; exact h
      refine wp_mono (switch_stay h₁ hen) ?_ fun _ _ _ => trivial
      intro _ w' hw'
      rw [hw'.active, hw₁, h.migrated_eq hlegacy]
      exact iff_of_true (holds_versioned _) hlegacy
    · obtain ⟨k, hk⟩ := not_forall.mp hlegacy
      obtain ⟨es, hes⟩ := Option.ne_none_iff_exists'.mp hk
      refine wp_mono (switch_loses h hes hw₁) ?_ fun _ _ _ => trivial
      exact fun _ w' hw' => iff_of_false hw' hlegacy

/-! ## The theorem -/

/-- With dual data on and the active entries those of the system that boots, a
switch keeps its promise exactly if dd fails, or another command fails and it is
to the system that boots already, or no command fails and /data has nothing that
such a switch damages. -/
theorem switch_ok_iff {c : Command} (h : Enabled q s w.data)
    (hmedia : "media" ∉ w.data.active) (hboot : dualbootRead w.misc = q.other)
    (hc : c = .set (some n) ∨ c = .save (some n)) :
    SwitchOk (owned q s w.data.active) n w (exec env none c w) ↔
      env.fails .dd = true ∨ (¬ Works env ∧ n = q.other) ∨
        (Works env ∧ Undamaged q s n w.data) := by
  have hne := SysId.other_ne q
  have hactive : owned q s w.data.active q.other = w.data.active := if_neg hne
  -- the two commands are one script
  have hexec : exec env none c w = (doSet env (some n)).run none (w.start env) := by
    rcases hc with rfl | rfl <;> rfl
  rw [hexec]
  by_cases hdd : env.fails .dd = true
  · rw [doSet_ddFails hdd]
    refine ⟨fun _ => .inl hdd, fun _ => ⟨rfl, ?_⟩⟩
    rw [hboot, hactive]
    exact .refl _
  · rw [Bool.not_eq_true] at hdd
    by_cases hworks : Works env
    · obtain ⟨w', hrun, hmisc, hiff⟩ := @doSet_works q n s env (w.start env)
        (fun d => Holds d.active (owned q s w.data.active n) ↔ Undamaged q s n w.data) h hdd rfl
        hworks fun w₁ hw₁ hen => switch_holds_iff h hmedia hw₁ hen
      rw [hrun]
      constructor
      · rintro ⟨-, hholds, -⟩
        exact .inr (.inr ⟨hworks, hiff.mp hholds⟩)
      · rintro (hno | ⟨hno, -⟩ | ⟨-, hok⟩)
        · rw [hdd] at hno
          cases hno
        · exact absurd hworks hno
        · refine ⟨?_, hiff.mpr hok, fun i hi => ?_⟩
          · rw [hmisc, dualbootRead_writeMisc]
          · rw [hmisc, writeMisc_outside hi]
            rfl
    · obtain ⟨w', hrun, hmisc, hdata⟩ := @doSet_fails n env (w.start env) hdd rfl hworks
      rw [hrun]
      constructor
      · rintro ⟨hread, -⟩
        rw [hmisc, dualbootRead_writeMisc, hboot] at hread
        exact .inr (.inl ⟨hworks, hread⟩)
      · rintro (hno | ⟨-, rfl⟩ | ⟨hno, -⟩)
        · rw [hdd] at hno
          cases hno
        · refine ⟨by rw [hmisc, dualbootRead_writeMisc, hboot], ?_⟩
          rw [hboot, hactive, hdata]
          exact .refl _
        · exact absurd hno hworks

/-- The device node of the system partition cannot be made. -/
def mknodFails : Env := { allWorks with fails := fun e => e = .mknod partnumSystem }

theorem twoSystems_enabled : Enabled .two (twoSystems .two) twoSystemsWorld.data :=
  ⟨rfl, by decide, rfl, fun _ => rfl⟩

/-- A switch to system 2 that fails at a device node, and a switch that does
not. -/
theorem switch_ok_iff_mknod :
    ¬ SwitchOk (owned .two (twoSystems .two) (twoSystems .one)) .two twoSystemsWorld
        (exec mknodFails none (.set (some .two)) twoSystemsWorld) ∧
    SwitchOk (owned .two (twoSystems .two) (twoSystems .one)) .two twoSystemsWorld
      (exec allWorks none (.save (some .two)) twoSystemsWorld) := by
  have hmedia : "media" ∉ twoSystemsWorld.data.active := by decide
  have hfails : ¬ Works mknodFails := by
    intro hworks
    exact absurd (hworks.mknod partnumSystem (by decide)) (by decide)
  have hundamaged : Undamaged .two (twoSystems .two) .two twoSystemsWorld.data := by
    rw [Undamaged, if_pos rfl]
    exact ⟨by decide, fun hno => absurd (by decide) hno⟩
  constructor
  · have hiff := @switch_ok_iff .two .two _ mknodFails _ _ twoSystems_enabled hmedia (by decide)
      (.inl rfl)
    rw [show twoSystems .one = twoSystemsWorld.data.active from rfl, hiff]
    rintro (hno | ⟨-, hno⟩ | ⟨hno, -⟩)
    · exact absurd hno (by decide)
    · exact absurd hno (by decide)
    · exact hfails hno
  · have hiff := @switch_ok_iff .two .two _ allWorks _ _ twoSystems_enabled hmedia (by decide)
      (.inr rfl)
    exact hiff.mpr (.inr (.inr ⟨⟨fun _ _ => rfl, rfl, rfl⟩, hundamaged⟩))

/-- The script exits, the bootmark is system 2's, and system 1's entries are
active. -/
theorem failed_switch_changes_boot :
    Enabled .two (twoSystems .two) twoSystemsWorld.data ∧
    ∃ w', exec mknodFails none (.set (some .two)) twoSystemsWorld = .stopped .exit w' ∧
      dualbootRead twoSystemsWorld.misc = .one ∧ dualbootRead w'.misc = .two ∧
      w'.data.active = twoSystems .one ∧
      ¬ SwitchOk (owned .two (twoSystems .two) (twoSystems .one)) .two twoSystemsWorld
        (exec mknodFails none (.set (some .two)) twoSystemsWorld) := by
  refine ⟨twoSystems_enabled, (exec mknodFails none (.set (some .two)) twoSystemsWorld).state, ?_,
    by decide, by decide, by decide, ?_⟩
  · rfl
  · rintro ⟨hread, -⟩
    exact absurd hread (by decide)

end Pisces.Dualboot
