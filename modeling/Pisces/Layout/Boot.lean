import Pisces.Dualboot.Spared
import Pisces.Dualboot.Versions
import Pisces.Layout.Migration

/-!
# Booting with systems put away

The directories of `dualboot.sh` are in /data/media too, and for the upgrade they
are entries like all others. What keeps it from moving them is the .layout_version
of the active system. While a system is packed its .layout_version is away with
the rest, and so it is from then on if nothing is unpacked. As long as no command
leaves /data like that the boots are harmless, and no command does that is killed
before the file goes or that brings one back.
-/

namespace Pisces.Layout

open Pisces.Lib Pisces.Lib.Script Pisces.Dualboot

variable {shell : Text → Option Int32} {d : Data} {rest : Entries} {zero : Option Entries}

def sealedName : SysId → Name
  | .one => "system-1"
  | .two => "system-2"

def disabledName : SysId → Name
  | .one => "system-1.disabled"
  | .two => "system-2.disabled"

/-- What `dualboot.sh` has put away in media, by name. -/
def awayList (d : Data) : List (Name × Option Entries) :=
  SysId.all.flatMap fun k =>
    [(sealedName k, d.sealed k), (tmpName k, d.tmp k), (disabledName k, d.disabled k)]

/-- The entries of media, with `rest` beside those. -/
def mediaEntries (rest : Entries) : List (Name × Option Entries) → Entries
  | [] => rest
  | (n, some s) :: l => (mediaEntries rest l).insert n (Entries.toNode s)
  | (_, none) :: l => mediaEntries rest l

/-- /data as a boot finds it; dual boot knows nothing of media/0. -/
def bootMedia (d : Data) (rest : Entries) (zero : Option Entries) : Media :=
  { version := d.active.lookup layoutVersion
    top := mediaEntries rest (awayList d)
    zero := zero }

/-- Every directory that was put away is where it was, with its content. -/
def AwayKept (d : Data) (s : Media) : Prop :=
  ∀ n es, (n, some es) ∈ awayList d → s.top.lookup n = some (Entries.toNode es)

def NothingAway (d : Data) : Prop :=
  ∀ k, d.sealed k = none ∧ d.tmp k = none ∧ d.disabled k = none

/-- The version is not 0; it is 0 if there is no file. -/
def VersionSet (shell : Text → Option Int32) (d : Data) : Prop :=
  isZero shell (bootMedia d ∅ none).oldVersion = false

/-! ## The directories -/

theorem mem_awayList {n : Name} {x : Option Entries} : (n, x) ∈ awayList d ↔
    ∃ k, n = sealedName k ∧ x = d.sealed k ∨ n = tmpName k ∧ x = d.tmp k ∨
      n = disabledName k ∧ x = d.disabled k := by
  simp only [awayList, List.mem_flatMap, SysId.mem_all, true_and, List.mem_cons, Prod.mk.injEq,
    List.not_mem_nil, or_false]

theorem nothingAway_iff : NothingAway d ↔ ∀ n es, (n, some es) ∉ awayList d := by
  constructor
  · intro hnone n es hmem
    obtain ⟨k, h⟩ := mem_awayList.mp hmem
    obtain ⟨hsealed, htmp, hdisabled⟩ := hnone k
    rw [hsealed, htmp, hdisabled] at h
    simp at h
  · intro hno k
    have hnone : ∀ {n : Name} {x : Option Entries}, (n, x) ∈ awayList d → x = none := by
      intro n x hmem
      cases x with
      | none => rfl
      | some es => exact absurd hmem (hno n es)
    exact ⟨hnone (mem_awayList.mpr ⟨k, .inl ⟨rfl, rfl⟩⟩),
      hnone (mem_awayList.mpr ⟨k, .inr (.inl ⟨rfl, rfl⟩)⟩),
      hnone (mem_awayList.mpr ⟨k, .inr (.inr ⟨rfl, rfl⟩)⟩)⟩

theorem awayList_nodup (d : Data) : ((awayList d).map Prod.fst).Nodup := by
  have hnames : (awayList d).map Prod.fst =
      SysId.all.flatMap fun k => [sealedName k, tmpName k, disabledName k] := rfl
  rw [hnames]
  decide

theorem mediaEntries_lookup {l : List (Name × Option Entries)} (hnodup : (l.map Prod.fst).Nodup)
    {n : Name} {es : Entries} (h : (n, some es) ∈ l) :
    (mediaEntries rest l).lookup n = some (Entries.toNode es) := by
  induction l with
  | nil => cases h
  | cons p l ih =>
      obtain ⟨m, x⟩ := p
      rw [List.map_cons, List.nodup_cons] at hnodup
      rcases List.mem_cons.mp h with heq | hmem
      · cases heq
        exact Finmap.lookup_insert _
      · have hne : n ≠ m := by
          rintro rfl
          exact hnodup.1 (List.mem_map.mpr ⟨_, hmem, rfl⟩)
        cases x with
        | none => exact ih hnodup.2 hmem
        | some s =>
            rw [mediaEntries, Finmap.lookup_insert_of_ne _ hne]
            exact ih hnodup.2 hmem

/-! ## The upgrade -/

theorem setVersion_top (content : String) (s : Media) : (setVersion content s).top = s.top := by
  unfold setVersion
  split <;> rfl

theorem writeVersion_top (t : Text) (s : Media) :
    (writeVersion t).wp (fun _ s' => s'.top = s.top) (fun why _ => why = .killed) s := by
  rw [writeVersion, wp_bind, wp_op, wp_op, setVersion_top, setVersion_top]
  exact ⟨rfl, rfl, rfl⟩

/-- The entries beside media/0 after a run. -/
theorem upgradeLayout_top (s : Media) :
    (upgradeLayout shell).wp
      (fun _ s' => s'.top = if isZero shell s.oldVersion = true ∧ s.zero = none then ∅ else s.top)
      (fun why _ => why = .killed) s := by
  by_cases hzero : isZero shell s.oldVersion = true
  · rw [upgradeLayout_upgrade hzero]
    refine wp_mono upgradeMedia_spec ?_ fun _ _ h => h.1
    intro _ s' hmedia
    rcases hmedia with ⟨hmade, rfl⟩ | ⟨hnone, hdone⟩
    · rw [if_neg fun h => hmade h.2]
      exact writeVersion_top _ _
    · rw [if_pos ⟨hzero, hnone⟩, hdone.done]
      exact writeVersion_top _ _
  · rw [if_neg fun h => hzero h.1]
    by_cases hold : s.oldVersion = []
    · rw [upgradeLayout_empty hold]
      exact writeVersion_top _ _
    · rw [upgradeLayout_nothing hzero hold]

theorem completeRun_top (s : Media) : (completeRun shell s).top =
    if isZero shell s.oldVersion = true ∧ s.zero = none then ∅ else s.top := by
  refine completeRun_meets (wp_mono (upgradeLayout_top s) (fun _ _ h => h) ?_)
  rintro why _ rfl
  exact Stop.of_killed_eq_exit

/-- A boot leaves what was put away in its place if and only if it has no upgrade
to make, or finds media/0, or there is nothing put away. -/
theorem awayKept_iff : AwayKept d (completeRun shell (bootMedia d rest zero)) ↔
    zero ≠ none ∨ NothingAway d ∨ VersionSet shell d := by
  have hold : (bootMedia d rest zero).oldVersion = (bootMedia d ∅ none).oldVersion := rfl
  rw [AwayKept, completeRun_top, hold, VersionSet, nothingAway_iff]
  split
  · next h =>
      -- everything is moved, and nothing was there to be moved
      obtain ⟨hzero, hnone⟩ := h
      have hset : ¬ isZero shell (bootMedia d ∅ none).oldVersion = false := by
        rw [hzero]
        exact Bool.false_ne_true ∘ Eq.symm
      have hnone : zero = none := hnone
      rw [or_iff_right (not_not_intro hnone), or_iff_left hset]
      refine forall₂_congr fun n es => ⟨fun h hmem => ?_, fun h hmem => absurd hmem h⟩
      have hlookup := h hmem
      rw [Finmap.lookup_empty] at hlookup
      cases hlookup
  · next h =>
      refine iff_of_true (fun n es hmem => mediaEntries_lookup (awayList_nodup d) hmem) ?_
      rw [not_and_or, Bool.not_eq_true] at h
      rcases h with hversion | hmade
      · exact .inr (.inr hversion)
      · exact .inl hmade

/-! ## Versions -/

/-- A number is 0 for the shell if it is in 32 bits. -/
theorem isZero_of_numeral {t : Text} {n : ℕ} (hnum : numeral t = some n) (hn : n % 2 ^ 32 ≠ 0) :
    isZero shell t = false := by
  have hne : Int32.ofNat n ≠ 0 := by
    intro hzero
    have hbits := congrArg (fun x => x.toBitVec.toNat) hzero
    simp only [Int32.toBitVec_ofNat', BitVec.toNat_ofNat] at hbits
    exact hn hbits
  rw [isZero, value, hnum, decide_eq_false_iff_not, Option.some.injEq]
  exact hne

/-- What is read from a .layout_version; nothing is from a directory. -/
def versionText : Node → Text
  | .file content => firstLine content
  | .dir _ => ['0']

/-- The entry is a .layout_version with the version 0, or a legacy directory that
has such an entry and that may be unpacked one day. -/
inductive Zeroed (shell : Text → Option Int32) : Name → Node → Prop where
  | here {v : Node} (h : isZero shell (versionText v) = true) : Zeroed shell layoutVersion v
  | legacy {k : SysId} {es : List (Name × Node)} {n : Name} {v : Node}
      (hv : (Entries.ofList es).lookup n = some v) (h : Zeroed shell n v) :
      Zeroed shell (legacyName k) (.dir es)

theorem zeroed_layoutVersion {v : Node} :
    Zeroed shell layoutVersion v ↔ isZero shell (versionText v) = true := by
  refine ⟨fun h => ?_, .here⟩
  generalize hn : layoutVersion = n at h
  cases h with
  | here h => exact h
  | legacy => exact absurd hn (layoutVersion_ne_legacy _)

theorem Zeroed.name {n : Name} {v : Node} (h : Zeroed shell n v) :
    n = layoutVersion ∨ ∃ k, n = legacyName k := by
  cases h with
  | here => exact .inl rfl
  | legacy => exact .inr ⟨_, rfl⟩

theorem tmpName_ne_legacy (m k : SysId) : tmpName m ≠ legacyName k := by
  cases m <;> cases k <;> decide

/-- The scripts make no version 0: a copy is of one that is not, and an empty
file is no number. -/
theorem notZeroed_hereditary : Hereditary fun n v => ¬ Zeroed shell n v where
  empty := by
    rw [zeroed_layoutVersion]
    exact Bool.false_ne_true
  created v hv := by
    rw [zeroed_layoutVersion] at hv ⊢
    cases v with
    | file content => exact Bool.false_ne_true
    | dir es => exact hv
  tmp m s _ hzero := by
    rcases hzero.name with hm | ⟨k, hk⟩
    · cases m <;> exact absurd hm (by decide)
    · exact tmpName_ne_legacy m k hk
  legacy k es hdir n v hv hzero := hdir (.legacy hv hzero)

theorem versionSet_of_hasVersion {w : World} (h : w.HasVersion)
    (hzero : Entries.All (fun n v => ¬ Zeroed shell n v) w.data.active) :
    VersionSet shell w.data := by
  obtain ⟨v, hv⟩ := Finmap.mem_iff.mp h
  have hold : (bootMedia w.data ∅ none).oldVersion = versionText v := by
    rw [Media.oldVersion, bootMedia, hv]
    cases v <;> rfl
  have hnot : ¬ Zeroed shell layoutVersion v := hzero _ _ hv
  rw [zeroed_layoutVersion, Bool.not_eq_true] at hnot
  rw [VersionSet, hold, hnot]

/-- In every run of commands, killed wherever one likes as long as they spare
.layout_version, a boot leaves what they have put away in its place; and it does
after any run if it finds media/0. -/
theorem boot_keeps_away {w₀ w : World} {calls : List Call} {content : String} {n : ℕ}
    (hnone : NothingAway w₀.data)
    (hversion : w₀.data.active.lookup layoutVersion = some (.file content))
    (hnum : numeral (firstLine content) = some n) (hn : n % 2 ^ 32 ≠ 0)
    (hlegacy : ∀ k v, w₀.data.active.lookup (legacyName k) = some v →
      ¬ Zeroed shell (legacyName k) v)
    (hrun : Run step (fun w c => zero ≠ none ∨ Spares w c) w₀ calls w) :
    AwayKept w.data (completeRun shell (bootMedia w.data rest zero)) := by
  rw [awayKept_iff]
  by_cases hmade : zero ≠ none
  · exact .inl hmade
  refine .inr (.inr ?_)
  have hno : ∀ {f : SysId → Option Entries}, (∀ k, f k = none) →
      AllIn (fun n v => ¬ Zeroed shell n v) f := by
    intro f hf k s hs
    rw [hf k] at hs
    cases hs
  have hactive : Entries.All (fun n v => ¬ Zeroed shell n v) w₀.data.active := by
    intro x v hv hzero
    rcases hzero.name with rfl | ⟨k, rfl⟩
    · rw [hversion, Option.some.injEq] at hv
      rw [← hv, zeroed_layoutVersion, versionText, isZero_of_numeral hnum hn] at hzero
      cases hzero
    · exact hlegacy k v hv hzero
  have h₀ : w₀.data.All fun n v => ¬ Zeroed shell n v :=
    ⟨hactive, hno fun k => (hnone k).1, hno fun k => (hnone k).2.1, hno fun k => (hnone k).2.2⟩
  have hall := all_reachable notZeroed_hereditary h₀ (hrun.imp fun _ _ _ _ _ => trivial)
  refine versionSet_of_hasVersion (hasVersion_reachable ?_ (hrun.imp fun _ _ _ hc _ => ?_))
    hall.active
  · exact Finmap.mem_of_lookup_eq_some hversion
  · exact hc.resolve_left hmade

/-! ## Examples of boots -/

/-- A single system, with an app. -/
def oneSystemWorld : World :=
  { twoSystemsWorld with data := { twoSystemsWorld.data with sealed := fun _ => none } }

theorem oneSystem_nothingAway : NothingAway oneSystemWorld.data := fun _ => ⟨rfl, rfl, rfl⟩

theorem oneSystem_version : oneSystemWorld.data.active.lookup layoutVersion = some (.file "1") := by
  decide +kernel

def enabled : List Call := [.of (.enabledualdata (some .one)) none]

/-- Dual data is enabled, and a switch to system 2 is killed with the app packed. -/
def switchEarly : List Call := enabled ++ [.of (.set (some .two)) (some 16)]

/-- A boot leaves the app in system-1.tmp. -/
theorem boot_keeps_away_early :
    (afterCalls oneSystemWorld switchEarly).data.tmp .one =
        some (.ofList [("app", .file "one")]) ∧
      AwayKept (afterCalls oneSystemWorld switchEarly).data (completeRun (fun _ => none)
        (bootMedia (afterCalls oneSystemWorld switchEarly).data ∅ none)) := by
  have hrun : Run step (fun w c => (none : Option Entries) ≠ none ∨ Spares w c) oneSystemWorld
      switchEarly (afterCalls oneSystemWorld switchEarly) := by
    refine .snoc (.snoc .nil (.inr ?_) rfl) (.inr ?_) rfl
    · exact .late ⟨Option.some_ne_none _, fun _ => rfl⟩ fun b hb => by cases hb
    · exact .early 16 rfl (by decide +kernel)
  have hlegacy : ∀ k v, oneSystemWorld.data.active.lookup (legacyName k) = some v →
      ¬ Zeroed (fun _ => none) (legacyName k) v := by
    intro k v hv
    have hnot : oneSystemWorld.data.active.lookup (legacyName k) = none := by
      cases k <;> decide +kernel
    rw [hnot] at hv
    cases hv
  exact ⟨by decide +kernel, boot_keeps_away (n := 1) oneSystem_nothingAway oneSystem_version
    (by decide +kernel) (by decide) hlegacy hrun⟩

/-- After that, a switch to system 2 is killed when it has packed .layout_version. -/
def switchKilled : List Call := enabled ++ [.of (.set (some .two)) (some 17)]

/-- The next boot moves the packed system to media/0. -/
theorem packed_system_moved :
    ∃ w, NothingAway oneSystemWorld.data ∧
      oneSystemWorld.data.active.lookup layoutVersion = some (.file "1") ∧
      Run step always oneSystemWorld switchKilled w ∧
      w.data.tmp .one = some (.ofList [("app", .file "one"), (layoutVersion, .file "1")]) ∧
      (completeRun (fun _ => none) (bootMedia w.data ∅ none)).top = ∅ ∧
      ¬ AwayKept w.data (completeRun (fun _ => none) (bootMedia w.data ∅ none)) := by
  have hpacked : (afterCalls oneSystemWorld switchKilled).data.tmp .one =
      some (.ofList [("app", .file "one"), (layoutVersion, .file "1")]) := by decide +kernel
  have hzero : isZero (fun _ => none)
      (bootMedia (afterCalls oneSystemWorld switchKilled).data ∅ none).oldVersion = true := by
    decide +kernel
  have htop : (completeRun (fun _ => none)
      (bootMedia (afterCalls oneSystemWorld switchKilled).data ∅ none)).top = ∅ := by
    rw [completeRun_top, if_pos ⟨hzero, rfl⟩]
  refine ⟨_, oneSystem_nothingAway, oneSystem_version, run_afterCalls _ _, hpacked, htop, ?_⟩
  rw [awayKept_iff, VersionSet, hzero]
  intro hkept
  rcases hkept with hno | hno | hno
  · exact hno rfl
  · rw [(hno .one).2.1] at hpacked
    cases hpacked
  · cases hno

end Pisces.Layout
