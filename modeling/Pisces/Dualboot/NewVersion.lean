import Pisces.Dualboot.Rules

/-!
# A new .layout_version

`dualdata_create_layout_version_` is to make a missing .layout_version a copy of
the first one there is: that of /data, of media/system-1 or of media/system-2.
Its loop has the three paths, but each round tests and copies that of /data.

`dualdata_enable` makes a file only when nothing is put away, so there the other
two paths could have nothing to give. After a switch the file is missing in /data
itself, and then the loop finds nothing: the new file is empty, whatever the
system that was put away has. When that happens can be told before the switch,
from the directory it will unpack and from what it will put away.
-/

namespace Pisces.Dualboot

open Pisces.Lib Pisces.Lib.Script

variable {env : Env} {d : Data} {w : World}

def Data.fileAt (d : Data) (t : Target) (n : Name) : Option Node :=
  (d.dirAt t).bind fun s => s.lookup n

/-- The first of the three .layout_version files that exists. -/
def Data.firstVersion (d : Data) : Option Node :=
  [Target.active, .sealed .one, .sealed .two].findSome? fun t => d.fileAt t layoutVersion

/-- If the file was missing, it is now a copy of the first one there was, and
empty if there was none. -/
def VersionCopied (t : Target) (d d' : Data) : Prop :=
  d.hasFile t layoutVersion = false →
    d'.fileAt t layoutVersion = some (d.firstVersion.getD (.file ""))

/-! ## The scripts up to the helper -/

/-- `dualdata_enable` up to its call of the helper, if it makes one. -/
def enableToVersion (env : Env) (currentsysid : Option SysId) : Script World (Option Target) := do
  forM SysId.all fun k => opData (enableSealed k)
  dualdataReopen env
  branch World.enabled (pure none) do
    let current ← get fun w => currentSysId env currentsysid w.data
    opData (mkdirSealed current.other)
    pure (some (.sealed current.other))

/-- And `dualdata_switchtodata`. -/
def switchToVersion (which : Option SysId) : Script World (Option Target) :=
  branch World.enabled
    (match which with
    | none => exit
    | some u => do
        pack u.other
        unpack u
        pure (some .active))
    (pure none)

def createVersion : Option Target → Script World Unit
  | none => pure ()
  | some t => dualdataCreateLayoutVersion t

/-- The script is `start` and then the helper, and the file that the helper
makes is a copy of the first one there is when it is called. -/
def CreatesCopy (script : Script World Unit) (start : Script World (Option Target)) (w : World) :
    Prop :=
  script = start >>= createVersion ∧
    start.wp (fun target w₁ => ∀ t ∈ target, (dualdataCreateLayoutVersion t).wp
      (fun _ w₂ => VersionCopied t w₁.data w₂.data) (fun _ _ => True) w₁) (fun _ _ => True) w

theorem dualdataEnable_eq (hint : Option SysId) :
    dualdataEnable env hint = enableToVersion env hint >>= createVersion := by
  unfold dualdataEnable enableToVersion
  simp only [bind_assoc, branch_bind]
  rfl

theorem dualdataSwitchtodata_eq (which : Option SysId) :
    dualdataSwitchtodata which = switchToVersion which >>= createVersion := by
  unfold dualdataSwitchtodata switchToVersion Script.when
  cases which with
  | none =>
      rw [branch_bind]
      rfl
  | some u =>
      simp only [bind_assoc, branch_bind]
      rfl

/-! ## The helper -/

theorem fileAt_insertAt {t : Target} (hdir : d.dirAt t ≠ none) (n : Name) (v : Node) :
    (d.insertAt t n v).fileAt t n = some v ∧ (d.insertAt t n v).dirAt t ≠ none := by
  cases t with
  | active => exact ⟨Finmap.lookup_insert _, Option.some_ne_none _⟩
  | sealed k =>
      obtain ⟨s, hs⟩ := Option.ne_none_iff_exists'.mp hdir
      have hs : d.sealed k = some s := hs
      simp [Data.insertAt, Data.fileAt, Data.dirAt, hs]

/-- What the helper makes depends on the .layout_version of /data only. -/
theorem createLayoutVersion_made {t : Target} (hdir : w.data.dirAt t ≠ none) :
    (dualdataCreateLayoutVersion t).wp
      (fun _ w' => w.data.hasFile t layoutVersion = false →
        w'.data.fileAt t layoutVersion =
          some ((w.data.active.lookup layoutVersion).getD (.file "")))
      (fun why _ => why = .killed) w := by
  refine wp_when ?_ ?_
  · intro _
    refine wp_branch ?_ ?_
    · intro _
      rw [wp_bind, wp_get, wp_bind, wp_opData, wp_opData]
      refine ⟨rfl, rfl, fun _ => ?_⟩
      exact (fileAt_insertAt (fileAt_insertAt hdir _ _).2 _ _).1
    · intro hnone
      have hnone : w.data.active.lookup layoutVersion = none := by
        simpa [Data.hasFile, Data.dirAt, Finmap.lookup_eq_none] using hnone
      rw [wp_opData, hnone]
      exact ⟨rfl, fun _ => (fileAt_insertAt hdir _ _).1⟩
  · intro hthere hmissing
    rw [hmissing] at hthere
    cases hthere

/-- Whether that is right can be told when the helper is called. -/
theorem createLayoutVersion_copies_iff {t : Target} (hdir : w.data.dirAt t ≠ none) :
    (dualdataCreateLayoutVersion t).wp (fun _ w' => VersionCopied t w.data w'.data)
      (fun _ _ => True) w ↔
    (w.data.hasFile t layoutVersion = false →
      (w.data.active.lookup layoutVersion).getD (.file "") =
        w.data.firstVersion.getD (.file "")) := by
  refine wp_settled (wp_mono (createLayoutVersion_made hdir) ?_ fun _ _ h => h)
  intro _ w' hmade
  constructor
  · intro hcopied hmissing
    rw [← Option.some.injEq, ← hmade hmissing]
    exact hcopied hmissing
  · intro hsame hmissing
    rw [hmade hmissing, hsame hmissing]

theorem firstVersion_eq (d : Data) :
    d.firstVersion = (d.active.lookup layoutVersion).or
      ((d.fileAt (.sealed .one) layoutVersion).or (d.fileAt (.sealed .two) layoutVersion)) := by
  unfold Data.firstVersion
  simp only [List.findSome?_cons, List.findSome?_nil]
  cases h₀ : d.fileAt .active layoutVersion <;>
    cases h₁ : d.fileAt (.sealed .one) layoutVersion <;>
    cases h₂ : d.fileAt (.sealed .two) layoutVersion <;>
    simp_all [Data.fileAt, Data.dirAt]

/-! ## Enabling -/

/-- Only the last line of `dualdata_open` sets `DUALDATA_ENABLED`. -/
theorem dualdataOpen_enabled_eq :
    (dualdataOpen env).wp (fun _ w' => w'.enabled = w'.data.hasSealed) (fun _ _ => True) w := by
  have hopData : ∀ f, Keeps (fun w : World => w.enabled = false) (opData f) :=
    fun f => .op fun _ h => h
  have hpack : ∀ m, Keeps (fun w : World => w.enabled = false) (packAll m) := by
    refine fun m => .bind (.get _) fun _ => .forM fun n _ => .op fun w h => ?_
    unfold packEntry
    split <;> exact h
  have hmv : ∀ m (w : World), w.enabled = false → (mvTmpSealed m w).enabled = false := by
    intro m w h
    unfold mvTmpSealed
    split
    · exact h
    · split
      · exact h
      · dsimp only
        split <;> exact h
  have hmiddle : Keeps (fun w : World => w.enabled = false) (do
      forM SysId.all fun k => opData (rmdirSealed k)
      forM SysId.all fun k => opData (rmdirLegacy k)
      forM SysId.all finishMove
      forM SysId.all dualdataMigrate) := by
    refine .bind (.forM fun _ _ => hopData _) fun _ =>
      .bind (.forM fun _ _ => hopData _) fun _ => ?_
    refine .bind (.forM fun m _ => .when (.bind (hpack m) fun _ => .op (hmv m))) fun _ => ?_
    exact .forM fun _ _ => .when (.branch (hopData _) (hopData _))
  rw [dualdataOpen, wp_bind]
  refine wp_mono bindData_spec ?_ fun _ _ _ => trivial
  intro _ w₁ hw₁
  have hrest := hmiddle w₁ hw₁.2.1
  simp only [wp_bind] at hrest ⊢
  refine wp_mono hrest (fun _ w₂ h₂ => ?_) fun _ _ _ => trivial
  refine wp_mono h₂ (fun _ w₃ h₃ => ?_) fun _ _ _ => trivial
  refine wp_mono h₃ (fun _ w₄ h₄ => ?_) fun _ _ _ => trivial
  refine wp_mono h₄ (fun _ w₅ h₅ => ?_) fun _ _ _ => trivial
  refine wp_when ?_ ?_
  · exact fun hsome => ⟨trivial, hsome.symm⟩
  · exact fun hnone => h₅.trans hnone.symm

/-- When `dualdata_enable` makes a new system, it is the only one put away, and
it is empty. -/
theorem enable_createsCopy (hint : Option SysId) (w : World) :
    CreatesCopy (dualdataEnable env hint) (enableToVersion env hint) w := by
  refine ⟨dualdataEnable_eq hint, ?_⟩
  unfold enableToVersion
  rw [wp_bind]
  refine wp_mono (?_ : Script.wp _ (fun _ _ => True) (fun _ _ => True) w) ?_ fun _ _ _ => trivial
  · exact (Keeps.forM fun _ _ => Keeps.op fun _ h => h : Keeps (fun _ => True) _) w trivial
  intro _ w₁ _
  rw [wp_bind, dualdataReopen, wp_bind, dualdataClose, wp_op]
  refine ⟨trivial, wp_mono dualdataOpen_enabled_eq ?_ fun _ _ _ => trivial⟩
  intro _ w₂ henabled
  refine wp_branch ?_ ?_
  · intro _ t ht
    cases ht
  · intro hoff
    rw [hoff] at henabled
    rw [wp_bind, wp_get, wp_bind, wp_opData]
    refine ⟨trivial, ?_⟩
    intro t ht
    rw [Option.mem_some] at ht
    subst ht
    generalize (currentSysId env hint w₂.data).other = k
    have hnone : ∀ j, w₂.data.sealed j = none := by
      intro j
      by_contra hsome
      rw [hasSealed_iff.mpr ⟨j, hsome⟩] at henabled
      cases henabled
    have hfile : ∀ j, (mkdirSealed k w₂.data).fileAt (.sealed j) layoutVersion = none := by
      intro j
      by_cases hj : j = k <;> simp [mkdirSealed, Data.fileAt, Data.dirAt, hnone, hj]
    refine (createLayoutVersion_copies_iff ?_).mpr fun _ => ?_
    · simp [mkdirSealed, Data.dirAt]
    · rw [firstVersion_eq, World.updateData_data, hfile, hfile]
      simp

/-! ## Switching -/

/-- /data keeps its .layout_version when its entries are packed as system `p`'s:
system-p is there already, or system-p.tmp has an entry that it cannot replace. -/
def Data.versionStays (p : SysId) (d : Data) : Bool :=
  match d.sealed p with
  | some _ => layoutVersion ∈ d.active
  | none =>
      match d.active.lookup layoutVersion, (d.tmp p).bind fun t => t.lookup layoutVersion with
      | some v, some old => !v.replaces old
      | _, _ => false

/-- The directory that is unpacked for system `u` has a .layout_version. -/
def Data.versionComes (u : SysId) (d : Data) : Bool :=
  match d.tmp u with
  | some t => layoutVersion ∈ t
  | none => d.hasFile (.sealed u) layoutVersion

/-- The .layout_version that a switch to system `u` leaves in media/system-k. A
system-u beside a system-u.tmp is not unpacked. -/
def Data.putAway (u k : SysId) (d : Data) : Option Node :=
  if k = u then
    if (d.tmp u).isSome then d.fileAt (.sealed u) layoutVersion else none
  else
    match d.sealed k with
    | some s => s.lookup layoutVersion
    | none => (d.active.lookup layoutVersion).or
        ((d.tmp k).bind fun t => t.lookup layoutVersion)

/-- What is known before a switch to system `u`: a .layout_version will be in
/data, or what is put away has none, or the first one put away is empty. -/
def Data.VersionKept (u : SysId) (d : Data) : Prop :=
  d.versionStays u.other = true ∨ d.versionComes u = true ∨
    ((d.putAway u .one).or (d.putAway u .two)).getD (.file "") = .file ""

instance (u : SysId) (d : Data) : Decidable (d.VersionKept u) :=
  inferInstanceAs (Decidable (_ ∨ _ ∨ _))

theorem lookup_getD_empty (o : Option Entries) (n : Name) :
    (o.getD ∅).lookup n = o.bind fun t => t.lookup n := by
  cases o with
  | none => exact Finmap.lookup_empty n
  | some t => rfl

/-- With no system-p, the .layout_version stays exactly if its rename is refused. -/
theorem versionStays_iff_refused {p : SysId} (hnone : d.sealed p = none) :
    d.versionStays p = true ↔
      Dir.Refused Node.replaces d.active ((d.tmp p).getD ∅) layoutVersion := by
  unfold Data.versionStays Dir.Refused
  rw [hnone, lookup_getD_empty]
  cases d.active.lookup layoutVersion <;>
    cases (d.tmp p).bind fun t => t.lookup layoutVersion <;> simp

theorem pack_version (u : SysId) (w : World) :
    (pack u.other).wp (fun _ w' =>
      (layoutVersion ∈ w'.data.active ↔ w.data.versionStays u.other = true) ∧
      (layoutVersion ∉ w'.data.active →
        w'.data.fileAt (.sealed u.other) layoutVersion = w.data.putAway u u.other) ∧
      w'.data.sealed u = w.data.sealed u ∧ w'.data.tmp u = w.data.tmp u)
      (fun why _ => why = .killed) w := by
  have hne : u ≠ u.other := (SysId.other_ne u).symm
  refine wp_when ?_ ?_
  · intro hnone
    have hnone : w.data.sealed u.other = none := by simpa using hnone
    rw [wp_bind, wp_opData]
    refine ⟨rfl, ?_⟩
    have htmp : (w.updateData (mkdirTmp u.other)).data.tmp u.other =
        some ((w.data.tmp u.other).getD ∅) := Function.update_self ..
    refine wp_mono (packSeal_spec htmp hnone) ?_ fun _ _ h => h.1
    intro _ w' hpacked
    obtain ⟨a', t', cs, hpart, -, rfl⟩ := hpacked
    refine ⟨?_, fun hgone => ?_, Function.update_of_ne hne _ _, ?_⟩
    · rw [versionStays_iff_refused hnone]
      exact ⟨fun hmem => (hpart.left _ hmem).resolve_left List.not_mem_nil, hpart.kept _⟩
    · have hlookup := hpart.gone _ hgone
      rw [lookup_getD_empty] at hlookup
      simpa [mkdirTmp, Data.fileAt, Data.dirAt, Data.putAway, SysId.other_ne, hnone] using hlookup
    · simp [mkdirTmp, Function.update_of_ne hne]
  · intro hsome
    obtain ⟨s, hs⟩ : ∃ s, w.data.sealed u.other = some s := by
      simpa [Option.isSome_iff_exists] using hsome
    refine ⟨?_, fun _ => ?_, rfl, rfl⟩
    · simp [Data.versionStays, hs]
    · simp [Data.putAway, Data.fileAt, Data.dirAt, hs, SysId.other_ne]

/-- Partway through unpacking: a .layout_version is in one of the two
directories if it was before, and one that is not yet in /data is still to come. -/
def UnpackingVersion (u : SysId) (t : Entries) (w : World) (rest : List Name) (w' : World) :
    Prop :=
  w'.data.sealed = w.data.sealed ∧ ∃ t', w'.data.tmp u = some t' ∧
    (layoutVersion ∈ t' ∨ layoutVersion ∈ w'.data.active ↔
      layoutVersion ∈ t ∨ layoutVersion ∈ w.data.active) ∧
    (layoutVersion ∈ t' → layoutVersion ∈ rest ∨ layoutVersion ∈ w'.data.active)

theorem UnpackingVersion.step {u : SysId} {t : Entries} {w' : World} {n : Name}
    {rest : List Name} (h : UnpackingVersion u t w (n :: rest) w') :
    UnpackingVersion u t w rest (unpackEntry u n w') := by
  obtain ⟨hsealed, t', ht', heither, hcome⟩ := h
  unfold unpackEntry
  rw [ht']
  dsimp only
  split
  case isTrue hmedia =>
    refine ⟨hsealed, t', ht', heither, fun hmem => ?_⟩
    rcases hcome hmem with hrest | hactive
    · rw [hmedia, List.mem_cons] at hrest
      exact .inl (hrest.resolve_left (by decide))
    · exact .inr hactive
  case isFalse =>
    refine ⟨hsealed, _, Data.withMove_tmp .., Dir.mem_move_either.trans heither, fun hmem => ?_⟩
    have hsrc := (Dir.mem_move_src hmem).1
    rcases hcome hsrc with hrest | hactive
    · rcases List.mem_cons.mp hrest with rfl | hrest
      · exact .inr (Dir.mem_move_both hmem)
      · exact .inl hrest
    · right
      show layoutVersion ∈ (Dir.move Node.replaces n t' w'.data.active).2
      rw [← Finmap.lookup_isSome, (Dir.move_stay hmem).2, Finmap.lookup_isSome]
      exact hactive

/-- The loop, from any state: what system-u.tmp has comes to /data. -/
theorem unpackRemove_version {u : SysId} {t : Entries} (ht : w.data.tmp u = some t) :
    (unpackAll u >>= fun _ => opData (rmdirTmp u)).wp (fun _ w' =>
      (layoutVersion ∈ w'.data.active ↔ layoutVersion ∈ w.data.active ∨ layoutVersion ∈ t) ∧
      w'.data.sealed = w.data.sealed) (fun why _ => why = .killed) w := by
  rw [wp_bind, unpackAll, wp_bind, wp_get, ht, Option.map_some, Option.getD_some]
  have hinit : UnpackingVersion u t w (glob t) w :=
    ⟨rfl, t, ht, Iff.rfl, fun hmem => .inl (mem_glob.mpr hmem)⟩
  refine wp_mono (wp_forM (UnpackingVersion u t w) (fun n rest w' h => ⟨rfl, h.step⟩) hinit) ?_
    fun _ _ h => h
  intro _ w' h
  obtain ⟨hsealed, t', -, heither, hcome⟩ := h
  rw [wp_opData, World.updateData_data]
  have hactive : (rmdirTmp u w'.data).active = w'.data.active := by
    unfold rmdirTmp
    split <;> rfl
  have hsame : (rmdirTmp u w'.data).sealed = w'.data.sealed := by
    unfold rmdirTmp
    split <;> rfl
  rw [hactive, hsame]
  refine ⟨rfl, ?_, hsealed⟩
  constructor
  · exact fun hmem => (heither.mp (.inr hmem)).symm
  · intro hmem
    rcases heither.mpr hmem.symm with ht' | hactive
    · exact (hcome ht').resolve_left List.not_mem_nil
    · exact hactive

theorem unpack_version (u : SysId) (w : World) :
    (unpack u).wp (fun _ w' =>
      (layoutVersion ∈ w'.data.active ↔
        layoutVersion ∈ w.data.active ∨ w.data.versionComes u = true) ∧
      w'.data.fileAt (.sealed u) layoutVersion = w.data.putAway u u ∧
      w'.data.sealed u.other = w.data.sealed u.other)
      (fun why _ => why = .killed) w := by
  rw [unpack, wp_bind]
  cases ht : w.data.tmp u with
  | some t =>
      -- an interrupted unpacking is taken up, and a system-u beside it stays
      refine wp_when (fun hno => ?_) fun _ => wp_when (fun _ => ?_) (fun hno => ?_)
      · simp [ht] at hno
      · refine wp_mono (unpackRemove_version ht) ?_ fun _ _ h => h
        intro _ w' h
        simpa [Data.versionComes, Data.putAway, Data.fileAt, Data.dirAt, ht, h.2] using h.1
      · simp [ht] at hno
  | none =>
      cases hs : w.data.sealed u with
      | none =>
          refine wp_when (fun hno => ?_) fun _ => wp_when (fun hno => ?_) (fun _ => ?_)
          · simp [hs] at hno
          · simp [ht] at hno
          · simp [Data.versionComes, Data.putAway, Data.fileAt, Data.dirAt, Data.hasFile, ht, hs]
      | some s =>
          have hmoved := mvSealedTmp_eq hs
          have htmp : (w.updateData (mvSealedTmp u)).data.tmp u = some s := by
            rw [hmoved]
            exact Function.update_self ..
          refine wp_when (fun _ => wp_opData.mpr ⟨rfl, wp_when (fun _ => ?_) fun hno => ?_⟩)
            fun hno => ?_
          · refine wp_mono (unpackRemove_version htmp) ?_ fun _ _ h => h
            intro _ w' h
            rw [hmoved] at h
            simpa [Data.versionComes, Data.putAway, Data.fileAt, Data.dirAt, Data.hasFile, ht, hs,
              h.2, SysId.other_ne] using h.1
          · rw [htmp] at hno
            cases hno
          · simp [ht, hs] at hno

/-- Where the .layout_version files of `d` are after the moves of a switch to
system `u`. -/
structure VersionMoved (u : SysId) (d d' : Data) : Prop where
  active : layoutVersion ∈ d'.active ↔ d.versionStays u.other = true ∨ d.versionComes u = true
  away : layoutVersion ∉ d'.active → ∀ k, d'.fileAt (.sealed k) layoutVersion = d.putAway u k

theorem moves_version (u : SysId) (w : World) :
    (pack u.other >>= fun _ => unpack u).wp (fun _ w' => VersionMoved u w.data w'.data)
      (fun why _ => why = .killed) w := by
  rw [wp_bind]
  refine wp_mono (pack_version u w) ?_ fun _ _ h => h
  intro _ w₁ h₁
  obtain ⟨hstays, hpacked, hsealed₁, htmp₁⟩ := h₁
  refine wp_mono (unpack_version u w₁) ?_ fun _ _ h => h
  intro _ w₂ h₂
  obtain ⟨hactive, hfile, hsealed₂⟩ := h₂
  have hcomes : w₁.data.versionComes u = w.data.versionComes u := by
    simp only [Data.versionComes, Data.hasFile, Data.dirAt, htmp₁, hsealed₁]
  have hleft : w₁.data.putAway u u = w.data.putAway u u := by
    simp only [Data.putAway, Data.fileAt, Data.dirAt, htmp₁, hsealed₁, if_true]
  rw [hstays, hcomes] at hactive
  refine ⟨hactive, fun hmem => (SysId.forall_iff u).mpr ⟨hfile.trans hleft, ?_⟩⟩
  have hgone : layoutVersion ∉ w₁.data.active := by
    intro hmem₁
    exact hmem (hactive.mpr (.inl (hstays.mp hmem₁)))
  rw [← hpacked hgone]
  simp only [Data.fileAt, Data.dirAt, hsealed₂]

/-- After the moves, the helper's file is right if /data has one, or if it is
right that the new one is empty. -/
theorem VersionMoved.copies_iff {u : SysId} (h : VersionMoved u d w.data) :
    (dualdataCreateLayoutVersion .active).wp (fun _ w' => VersionCopied .active w.data w'.data)
      (fun _ _ => True) w ↔ d.VersionKept u := by
  rw [@createLayoutVersion_copies_iff w .active (Option.some_ne_none _), Data.VersionKept,
    ← or_assoc, ← h.active]
  by_cases hmem : layoutVersion ∈ w.data.active
  · simp [Data.hasFile, Data.dirAt, hmem]
  · have hnone : w.data.active.lookup layoutVersion = none := Finmap.lookup_eq_none.mpr hmem
    rw [firstVersion_eq, h.away hmem, h.away hmem, hnone]
    simp only [Data.hasFile, Data.dirAt, hmem, decide_false, Option.getD_none, Option.none_or,
      true_implies, false_or]
    exact eq_comm

theorem switch_createsCopy_iff (u : SysId) (hon : w.enabled = true) :
    CreatesCopy (dualdataSwitchtodata (some u)) (switchToVersion (some u)) w ↔
      w.data.VersionKept u := by
  rw [CreatesCopy, and_iff_right (dualdataSwitchtodata_eq _)]
  refine wp_settled (wp_branch (fun _ => ?_) fun hoff => ?_)
  · dsimp only
    rw [← bind_assoc, wp_bind]
    refine wp_mono (moves_version u w) ?_ fun _ _ h => h
    intro _ w' hmoved
    rw [wp_pure]
    simp only [Option.mem_some, forall_eq']
    exact hmoved.copies_iff
  · rw [hon] at hoff
    cases hoff

/-- A new .layout_version is a copy of the first one there is: always when dual
data is enabled, and after a switch exactly if /data is not left without one
while one is put away. -/
theorem newVersion_copied_iff (env : Env) (hint which : Option SysId) (w : World) :
    CreatesCopy (dualdataEnable env hint) (enableToVersion env hint) w ∧
    (CreatesCopy (dualdataSwitchtodata which) (switchToVersion which) w ↔
      ∀ u ∈ which, w.enabled = true → w.data.VersionKept u) := by
  refine ⟨enable_createsCopy hint w, ?_⟩
  by_cases hswitch : w.enabled = true ∧ which.isSome = true
  · obtain ⟨hon, hwhich⟩ := hswitch
    obtain ⟨u, rfl⟩ := Option.isSome_iff_exists.mp hwhich
    rw [switch_createsCopy_iff u hon]
    simp [hon]
  · -- nothing is switched, and no file made
    have hskip : CreatesCopy (dualdataSwitchtodata which) (switchToVersion which) w := by
      refine ⟨dualdataSwitchtodata_eq which, wp_branch (fun hon => ?_) fun _ t ht => ?_⟩
      · cases which with
        | none => trivial
        | some u => exact absurd ⟨hon, rfl⟩ hswitch
      · cases ht
    refine iff_of_true hskip ?_
    intro u hu hon
    rw [Option.mem_def] at hu
    exact absurd ⟨hon, by rw [hu]; rfl⟩ hswitch

/-- System 1 is active and has a version; system 2 is put away and has none. -/
def versionlessWorld : World where
  data :=
    { active := .ofList [("app", .file "one"), (layoutVersion, .file "1")]
      sealed := fun k => if k = .two then some (.ofList [("app", .file "two")]) else none
      tmp := fun _ => none
      disabled := fun _ => none }
  misc := fun _ => 0
  nodes := fun _ => none
  mounted := true
  enabled := true
  binds := 1
  clashes := []
  whose := fun _ => .one

/-- A switch to system 2 makes an empty version beside the one put away. -/
theorem newVersion_empty :
    ¬ CreatesCopy (dualdataSwitchtodata (some .two)) (switchToVersion (some .two))
        versionlessWorld ∧
      ((dualdataSwitchtodata (some .two)).run none versionlessWorld).state.data.active.lookup
        layoutVersion = some (.file "") ∧
      (((dualdataSwitchtodata (some .two)).run none versionlessWorld).state.data.sealed .one).map
        (fun s => s.lookup layoutVersion) = some (some (.file "1")) := by
  refine ⟨?_, by decide +kernel, by decide +kernel⟩
  rw [switch_createsCopy_iff .two rfl]
  decide +kernel

end Pisces.Dualboot
