import Mathlib.Data.List.DropRight
import Pisces.Dualboot.Model

/-!
# The layout of /data/media

`upgrade_layout.sh` runs at every boot, before anything else uses /data. A /data
with no .layout_version is one from before there were several users: the script
makes media/0 and moves everything in media there, and then notes version 1.

It has two marks of what it has done. The version file comes last, and is made
empty before it is written; media/0 comes first, and the moves are made only by
the run that made it.
-/

namespace Pisces.Layout

open Pisces.Lib Pisces.Lib.Script Pisces.Dualboot

/-- /data/.layout_version, the entries of /data/media other than 0, and media/0. -/
structure Media where
  version : Option Node
  top : Entries
  zero : Option Entries

/-! ## Numbers in the shell -/

abbrev Text := List Char

def isBlank (c : Char) : Bool := c = ' ' || c = '\t'

/-- `read -r`: the first line, without the blanks around it. -/
def firstLine (content : String) : Text :=
  ((content.toList.takeWhile (· ≠ '\n')).dropWhile isBlank).rdropWhile isBlank

def digitsValue (t : Text) : ℕ := t.foldl (fun n c => 10 * n + (c.toNat - '0'.toNat)) 0

def numeral (t : Text) : Option ℕ :=
  if t ≠ [] ∧ t.all Char.isDigit then some (digitsValue t) else none

section

/- What the shell makes of an expression that is no numeral, in its arithmetic of
32 bits; several words are an error. -/
variable (shell : Text → Option Int32)

def value (t : Text) : Option Int32 :=
  match numeral t with
  | some n => some (Int32.ofNat n)
  | none => if t = [] then none else shell t

/-- `[ $t -eq 0 ]`, an error if there is no word for `$t`. -/
def isZero (t : Text) : Bool := value shell t = some 0

/-- `[ $t -ne $u ]`. Without words for the two, `-ne` is a string that is not
empty. -/
def differs (t u : Text) : Bool :=
  if t = [] ∧ u = [] then true
  else
    match value shell t, value shell u with
    | some a, some b => a ≠ b
    | _, _ => false

/-! ## The script -/

/-- A directory cannot be read, which leaves the variable as it was. -/
def Media.oldVersion (s : Media) : Text :=
  match s.version with
  | some (.file content) => firstLine content
  | _ => ['0']

def mkdirZero (s : Media) : Media := { s with zero := some (s.zero.getD ∅) }

/-- Neither the mode nor the owner of media/0 is in the model. -/
def chmodZero (s : Media) : Media := s

def chownZero (s : Media) : Media := s

/-- Renames the entry `n` of media into media/0. -/
def moveEntry (n : Name) (s : Media) : Media :=
  match s.zero with
  | none => s
  | some z =>
      let moved := Dir.move Node.replaces n s.top z
      { s with top := moved.1, zero := some moved.2 }

/-- `> "$layoutFile"` with this text in it, which fails for a directory. -/
def setVersion (content : String) (s : Media) : Media :=
  match s.version with
  | some (.dir _) => s
  | _ => { s with version := some (.file content) }

/-- `/data/media/.* /data/media/*` -/
def mediaGlob (d : Entries) : List Name :=
  d.names.filter Dualboot.hidden ++ d.names.filter (!Dualboot.hidden ·)

/-- `mv /data/media/.* /data/media/* /data/media/0/` -/
def moveAll : Script Media Unit := do
  let names ← get fun s => mediaGlob s.top
  forM names fun n => op (moveEntry n)

def upgradeMedia : Script Media Unit :=
  when (fun s => s.zero.isNone) do
    op mkdirZero
    op chmodZero
    op chownZero
    moveAll

/-- The redirection makes the file empty, and then echo writes it. -/
def writeVersion (t : Text) : Script Media Unit := do
  op (setVersion "")
  op (setVersion (String.ofList t))

/-- The version after the upgrade to version 1, if that has to be made. -/
def upgradeToOne (version : Text) : Script Media Text :=
  if isZero shell version then do
    upgradeMedia
    pure ['1']
  else pure version

def upgradeLayout : Script Media Unit := do
  let oldVersion ← get Media.oldVersion
  let version ← upgradeToOne shell oldVersion
  if differs shell version oldVersion then writeVersion version else pure ()

end

/-! ## What the parts do -/

variable {shell : Text → Option Int32} {s s' : Media}

theorem mem_mediaGlob {d : Entries} {n : Name} : n ∈ mediaGlob d ↔ n ∈ d := by
  rw [mediaGlob, List.mem_append, List.mem_filter, List.mem_filter, Dir.mem_names]
  cases Dualboot.hidden n <;> simp

/-- `s'` is `s` partway through the moves. -/
def Moving (s : Media) (rest : List Name) (s' : Media) : Prop :=
  ∃ top z, Dir.Partway Node.replaces s.top ∅ rest top z ∧
    s' = { s with top := top, zero := some z }

theorem Moving.step {n : Name} {rest : List Name} (h : Moving s (n :: rest) s') :
    Moving s rest (moveEntry n s') := by
  obtain ⟨top, z, hpart, rfl⟩ := h
  exact ⟨_, _, hpart.move, rfl⟩

/-- At the end there is nothing left beside media/0. -/
theorem Moving.done (h : Moving s [] s') : s' = { s with top := ∅, zero := some s.top } := by
  obtain ⟨top, z, hpart, rfl⟩ := h
  obtain ⟨htop, hz⟩ := hpart.done fun n _ => Finmap.notMem_empty
  rw [htop, hz, Finmap.union_empty]

theorem moveAll_spec (hzero : s.zero = some ∅) :
    moveAll.wp (fun _ => Moving s [])
      (fun why s' => why = .killed ∧ ∃ rest, Moving s rest s') s := by
  rw [moveAll, wp_bind, wp_get]
  have hinit : Moving s (mediaGlob s.top) s := by
    refine ⟨s.top, ∅, .init fun n hn => mem_mediaGlob.mpr hn, ?_⟩
    rw [← hzero]
  refine wp_forM (Moving s) ?_ hinit
  intro n rest s' h
  exact ⟨⟨rfl, _, h⟩, h.step⟩

/-- Nothing at all if there is a media/0; else every entry goes there. -/
theorem upgradeMedia_spec :
    upgradeMedia.wp
      (fun _ s' => s.zero ≠ none ∧ s' = s ∨ s.zero = none ∧ Moving s [] s')
      (fun why s' => why = .killed ∧ s.zero = none ∧ (s' = s ∨ ∃ rest, Moving s rest s')) s := by
  refine wp_when ?_ ?_
  · intro hnone
    have hzero : s.zero = none := Option.isNone_iff_eq_none.mp hnone
    have hmade : mkdirZero s = { s with zero := some ∅ } := by rw [mkdirZero, hzero]; rfl
    have hstart : ∃ rest, Moving s rest (mkdirZero s) := by
      rw [hmade]
      exact ⟨mediaGlob s.top, s.top, ∅, .init fun n hn => mem_mediaGlob.mpr hn, rfl⟩
    have hmoving : ∀ {rest s'}, Moving (mkdirZero s) rest s' → Moving s rest s' := by
      intro rest s' hpartway
      obtain ⟨top, z, hpart, rfl⟩ := hpartway
      exact ⟨top, z, hpart, rfl⟩
    refine ⟨⟨rfl, hzero, .inl rfl⟩, ⟨rfl, hzero, .inr hstart⟩, ⟨rfl, hzero, .inr hstart⟩, ?_⟩
    refine wp_mono (@moveAll_spec (mkdirZero s) (by rw [hmade])) ?_ ?_
    · exact fun _ s' h => .inr ⟨hzero, hmoving h⟩
    · intro _ s' hstop
      obtain ⟨hkilled, rest, h⟩ := hstop
      exact ⟨hkilled, hzero, .inr ⟨rest, hmoving h⟩⟩
  · intro hsome
    refine .inl ⟨fun hzero => ?_, rfl⟩
    rw [hzero] at hsome
    cases hsome

theorem differs_self (t : Text) : differs shell t t = decide (t = []) := by
  unfold differs
  split
  · next h => simp [h.1]
  · next h =>
      have hne : t ≠ [] := fun ht => h ⟨ht, ht⟩
      cases value shell t <;> simp [hne]

theorem differs_one {t : Text} (h : isZero shell t = true) : differs shell ['1'] t = true := by
  have hone : value shell ['1'] = some 1 := rfl
  have hzero : value shell t = some 0 := of_decide_eq_true h
  rw [differs, hone, hzero]
  rfl

section

variable {Q : Unit → Media → Prop} {C : Stop → Media → Prop}

/-- The version is 0: the upgrade is made and noted. -/
theorem upgradeLayout_upgrade (h : isZero shell s.oldVersion = true) :
    (upgradeLayout shell).wp Q C s ↔
      upgradeMedia.wp (fun _ s' => (writeVersion ['1']).wp Q C s') C s := by
  rw [upgradeLayout, wp_bind, wp_get, wp_bind, upgradeToOne, if_pos h, wp_bind]
  simp only [wp_pure, differs_one h, if_true]

/-- There is nothing in the file: it is written again with nothing in it. -/
theorem upgradeLayout_empty (h : s.oldVersion = []) :
    (upgradeLayout shell).wp Q C s ↔ (writeVersion []).wp Q C s := by
  have hzero : ¬ isZero shell [] = true := Bool.false_ne_true
  rw [upgradeLayout, wp_bind, wp_get, wp_bind, h, upgradeToOne, if_neg hzero, wp_pure, differs_self]
  rfl

theorem upgradeLayout_nothing (hzero : ¬ isZero shell s.oldVersion = true)
    (h : s.oldVersion ≠ []) : (upgradeLayout shell).wp Q C s ↔ Q () s := by
  rw [upgradeLayout, wp_bind, wp_get, wp_bind, upgradeToOne, if_neg hzero, wp_pure, differs_self,
    decide_eq_false h]
  rfl

end

end Pisces.Layout
