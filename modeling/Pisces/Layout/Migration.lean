import Pisces.Layout.Model
import Pisces.Lib.Runs

/-!
# The migration and kills

The first run moves everything, if nobody kills it. A run that finds media/0
takes the moves for done, whatever there is beside it, and a run that finds an
empty version file takes it for a version that is not 0. So a kill between the
mkdir and the last of the moves, or before the version is in its file, is never
made good.
-/

namespace Pisces.Layout

open Pisces.Lib Pisces.Lib.Script Pisces.Dualboot

variable {shell : Text → Option Int32} {es : Entries} {s s' : Media}

/-- /data as it was before there were several users. -/
def Media.old (es : Entries) : Media := ⟨none, es, none⟩

/-- A run that is killed when it asks for an operation beyond `n`. -/
def killedRun (shell : Text → Option Int32) (s : Media) (n : ℕ) : Option Media :=
  some ((upgradeLayout shell).run (some n) s).state

/-- A run that nobody kills. -/
def completeRun (shell : Text → Option Int32) (s : Media) : Media :=
  ((upgradeLayout shell).run none s).state

/-- The entries `es` are in media/0, and the version is 1. -/
structure Migrated (es : Entries) (s : Media) : Prop where
  entries : ∀ n v, es.lookup n = some v → ∃ z, s.zero = some z ∧ z.lookup n = some v
  version : s.version = some (.file "1")

/-- Nothing has been moved or everything has, and the version file is not empty. -/
structure Resumable (s : Media) : Prop where
  moves : s.zero = none ∨ s.top = ∅
  version : s.version ≠ some (.file "")

/-- The version files there can be. -/
def versions : List (Option Node) := [none, some (.file ""), some (.file "1")]

/-- What the runs that are killed can leave. -/
inductive Reached (es : Entries) : Media → Prop
  | old : Reached es (.old es)
  | made {version : Option Node} {rest : List Name} {top z : Entries}
      (hpart : Dir.Partway Node.replaces es ∅ rest top z)
      (hversion : version ∈ versions) :
      Reached es ⟨version, top, some z⟩

/-! ## One run -/

theorem completeRun_meets {Q : Media → Prop}
    (h : (upgradeLayout shell).wp (fun _ => Q) (fun why _ => why = .exit → False) s) :
    Q (completeRun shell s) :=
  (run_none_meets h).state (fun _ _ hend => hend) (fun _ _ hexit => hexit.2.elim)

section

variable {version : Option Node} {rest : List Name} {top z : Entries}

/-- The version is noted, with media/0 there. -/
theorem writeVersion_spec (hpart : Dir.Partway Node.replaces es ∅ rest top z)
    (hversion : version ∈ versions) {t : Text}
    (ht : some (.file (String.ofList t)) ∈ versions) :
    (writeVersion t).wp
      (fun _ s' => Reached es s' ∧ s' = ⟨some (.file (String.ofList t)), top, some z⟩)
      (fun why s' => why = .killed ∧ Reached es s') ⟨version, top, some z⟩ := by
  have hset : setVersion "" ⟨version, top, some z⟩ = ⟨some (.file ""), top, some z⟩ := by
    simp only [versions, List.mem_cons, List.not_mem_nil, or_false] at hversion
    rcases hversion with rfl | rfl | rfl <;> rfl
  rw [writeVersion, wp_bind, wp_op, wp_op, hset]
  exact ⟨⟨rfl, .made hpart hversion⟩, ⟨rfl, .made hpart (by decide)⟩, .made hpart ht, rfl⟩

/-- A run that finds media/0 moves nothing. -/
theorem upgradeLayout_made (hpart : Dir.Partway Node.replaces es ∅ rest top z)
    (hversion : version ∈ versions) :
    (upgradeLayout shell).wp
      (fun _ s' => Reached es s' ∧
        s' = ⟨if version = some (.file "") then version else some (.file "1"), top, some z⟩)
      (fun why s' => why = .killed ∧ Reached es s') ⟨version, top, some z⟩ := by
  have hcases := hversion
  simp only [versions, List.mem_cons, List.not_mem_nil, or_false] at hcases
  rcases hcases with rfl | rfl | rfl
  · rw [upgradeLayout_upgrade rfl]
    refine wp_mono upgradeMedia_spec ?_ ?_
    · intro _ _ hmedia
      rcases hmedia with ⟨-, rfl⟩ | ⟨hno, -⟩
      · exact writeVersion_spec hpart hversion (by decide)
      · cases hno
    · intro _ _ hmedia
      obtain ⟨-, hno, -⟩ := hmedia
      cases hno
  · rw [upgradeLayout_empty rfl]
    exact writeVersion_spec hpart hversion (by decide)
  · have hold : Media.oldVersion ⟨some (.file "1"), top, some z⟩ = ['1'] := rfl
    rw [upgradeLayout_nothing (by rw [hold]; exact Bool.false_ne_true)
      (by rw [hold]; exact List.cons_ne_nil _ _)]
    exact ⟨.made hpart hversion, rfl⟩

end

theorem upgradeLayout_old :
    (upgradeLayout shell).wp
      (fun _ s' => Reached es s' ∧ s' = ⟨some (.file "1"), ∅, some es⟩)
      (fun why s' => why = .killed ∧ Reached es s') (.old es) := by
  rw [upgradeLayout_upgrade rfl]
  refine wp_mono upgradeMedia_spec ?_ ?_
  · intro _ _ hmedia
    rcases hmedia with ⟨hno, -⟩ | ⟨-, top, z, hpart, rfl⟩
    · exact absurd rfl hno
    · obtain ⟨htop, hz⟩ := hpart.done fun n _ => Finmap.notMem_empty
      rw [Finmap.union_empty] at hz
      subst htop hz
      exact writeVersion_spec hpart List.mem_cons_self (by decide)
  · intro why _ hmedia
    obtain ⟨hkilled, -, rfl | ⟨rest, top, z, hpart, rfl⟩⟩ := hmedia
    · exact ⟨hkilled, .old⟩
    · exact ⟨hkilled, .made hpart List.mem_cons_self⟩

/-! ## Any number of runs -/

theorem Reached.keeps : Keeps (Reached es) (upgradeLayout shell) := by
  intro s h
  cases h with
  | old => exact wp_mono upgradeLayout_old (fun _ _ h => h.1) (fun _ _ h => h.2)
  | made hpart hversion =>
      exact wp_mono (upgradeLayout_made hpart hversion) (fun _ _ h => h.1) (fun _ _ h => h.2)

theorem Reached.killedRun {n : ℕ} (h : Reached es s) (hrun : killedRun shell s n = some s') :
    Reached es s' := by
  rw [Layout.killedRun, Option.some.injEq] at hrun
  rw [← hrun]
  exact run_state (Reached.keeps s h) (some n)

/-- Of the entries some are beside media/0, unless there are none left. -/
theorem lookup_of_partway {rest : List Name} {top z : Entries}
    (hpart : Dir.Partway Node.replaces es ∅ rest top z) :
    (∀ n v, es.lookup n = some v → z.lookup n = some v) ↔ top = ∅ := by
  constructor
  · intro hall
    rw [Dir.eq_empty_iff]
    intro n hn
    obtain ⟨v, hv⟩ := Finmap.mem_iff.mp (hpart.mem_src hn)
    have hz := hall n v hv
    rw [(hpart.stay n hn).2, Finmap.lookup_empty] at hz
    cases hz
  · rintro rfl n v hv
    rw [hpart.gone n Finmap.notMem_empty, hv, Option.some_or]

theorem Reached.completeRun_iff (h : Reached es s) :
    Migrated es (completeRun shell s) ↔ Resumable s := by
  have hkilled : ∀ {P : Prop} {why : Stop}, why = .killed ∧ P → why = .exit → False := by
    intro P why hstop hexit
    obtain ⟨rfl, -⟩ := hstop
    cases hexit
  cases h with
  | old =>
      have hdone := completeRun_meets (wp_mono (@upgradeLayout_old shell es)
        (fun _ _ h => h.2) (fun _ _ h => hkilled h))
      rw [hdone]
      refine iff_of_true ⟨fun n v hv => ⟨es, rfl, hv⟩, rfl⟩ ⟨.inl rfl, ?_⟩
      exact (Option.some_ne_none _).symm
  | @made version rest top z hpart hversion =>
      have hdone := completeRun_meets (wp_mono (@upgradeLayout_made shell es _ _ _ _ hpart hversion)
        (fun _ _ h => h.2) (fun _ _ h => hkilled h))
      rw [hdone]
      constructor
      · intro hmigrated
        obtain ⟨hentries, hone⟩ := hmigrated
        refine ⟨.inr ((lookup_of_partway hpart).mp fun n v hv => ?_), ?_⟩
        · obtain ⟨_, ⟨⟩, hz⟩ := hentries n v hv
          exact hz
        · rintro rfl
          have hsame : some (Node.file "") = some (.file "1") := hone
          exact absurd hsame (by decide)
      · intro hresumable
        obtain ⟨hmoves | htop, hfile⟩ := hresumable
        · cases hmoves
        · have hall := (lookup_of_partway hpart).mpr htop
          exact ⟨fun n v hv => ⟨z, rfl, hall n v hv⟩, if_neg hfile⟩

/-- After any number of runs that were killed, a run that is not finishes the
migration if and only if they left it resumable. -/
theorem migration_resumes_iff {kills : List ℕ}
    (hrun : Run (killedRun shell) always (.old es) kills s) :
    Migrated es (completeRun shell s) ↔ Resumable s := by
  have hreached : Reached es s :=
    hrun.invariant (I := Reached es) .old fun _ _ _ h _ hstep => h.killedRun hstep
  exact hreached.completeRun_iff

/-- A media with a single file. -/
def photo : Entries := .ofList [("photo", .file "jpeg")]

theorem photo_lookup : photo.lookup "photo" = some (.file "jpeg") := by decide

/-- Killed when the file is moved and the version is not noted, and run again. -/
theorem migration_resumes_iff_moved :
    ∃ s, Run (killedRun fun _ => none) always (.old photo) [4] s ∧ s.top = ∅ ∧
      s.version = none ∧ Migrated photo (completeRun (fun _ => none) s) := by
  have hrun : Run (killedRun fun _ => none) always (.old photo) [4] _ := .snoc .nil trivial rfl
  have hmoved : ((upgradeLayout fun _ => none).run (some 4) (.old photo)).state.top = ∅ := by
    decide
  have hresumable : Resumable ((upgradeLayout fun _ => none).run (some 4) (.old photo)).state :=
    ⟨.inr hmoved, by decide⟩
  exact ⟨_, hrun, hmoved, rfl, (migration_resumes_iff hrun).mpr hresumable⟩

/-- Killed right after the mkdir: the next run leaves the file where it is. -/
theorem migration_stops_after_mkdir :
    ∃ s, Run (killedRun fun _ => none) always (.old photo) [1] s ∧
      (completeRun (fun _ => none) s).zero = some ∅ ∧
      (completeRun (fun _ => none) s).version = some (.file "1") ∧
      ¬ Migrated photo (completeRun (fun _ => none) s) := by
  have hrun : Run (killedRun fun _ => none) always (.old photo) [1] ⟨none, photo, some ∅⟩ :=
    .snoc .nil trivial rfl
  refine ⟨_, hrun, rfl, rfl, fun hdone => ?_⟩
  obtain ⟨z, hz, hphoto⟩ := hdone.entries "photo" _ photo_lookup
  obtain rfl : ∅ = z := Option.some.inj hz
  rw [Finmap.lookup_empty] at hphoto
  cases hphoto

end Pisces.Layout
