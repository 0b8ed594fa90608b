import Pisces.Dualboot.CrashSafe
import Pisces.Dualboot.Legacy
import Pisces.Lib.Cut

/-!
# While .layout_version is away

A system that is packed takes its .layout_version with it, and /data has none
until another one is unpacked or made. Here is which commands do that, at which
operation the file goes and at which one is back; killed in between, a command
leaves /data without one, and killed anywhere else it does not.
-/

namespace Pisces.Dualboot

open Pisces.Lib Pisces.Lib.Script

variable {env : Env} {w w' : World} {d : Data} {k : SysId}
  {Q : (SysId → Option Entries) → Prop}

/-- /data has a .layout_version. -/
def World.HasVersion (w : World) : Prop := layoutVersion ∈ w.data.active

/-! ## Operations that do not take it away -/

/-- It is there, and the .tmp directories are as `Q` says. -/
def Has (Q : (SysId → Option Entries) → Prop) (w : World) : Prop :=
  w.HasVersion ∧ Q w.data.tmp

theorem layoutVersion_ne_legacy (k : SysId) : layoutVersion ≠ legacyName k := by
  cases k <;> decide

theorem eraseLegacy_has (k : SysId) (h : layoutVersion ∈ d.active) :
    layoutVersion ∈ d.active.erase (legacyName k) :=
  Finmap.mem_erase.mpr ⟨layoutVersion_ne_legacy k, h⟩

theorem rmdirLegacy_has (k : SysId) (h : layoutVersion ∈ d.active) :
    layoutVersion ∈ (rmdirLegacy k d).active := by
  unfold rmdirLegacy
  split
  · exact eraseLegacy_has k h
  · exact h

theorem mvLegacySealed_has (k : SysId) (h : layoutVersion ∈ d.active) :
    layoutVersion ∈ (mvLegacySealed k d).active := by
  unfold mvLegacySealed
  split
  · exact h
  · exact eraseLegacy_has k h

theorem enableSealed_active (k : SysId) (d : Data) : (enableSealed k d).active = d.active := by
  unfold enableSealed
  split <;> rfl

theorem enableSealed_tmp (k : SysId) (d : Data) : (enableSealed k d).tmp = d.tmp := by
  unfold enableSealed
  split <;> rfl

theorem disableSealed_active (k : SysId) (d : Data) : (disableSealed k d).active = d.active := by
  unfold disableSealed
  split <;> rfl

theorem disableSealed_tmp (k : SysId) (d : Data) : (disableSealed k d).tmp = d.tmp := by
  unfold disableSealed
  split <;> rfl

theorem insertAt_tmp (t : Target) (n : Name) (v : Node) (d : Data) :
    (Data.insertAt t n v d).tmp = d.tmp := by
  unfold Data.insertAt
  split
  · rfl
  · split <;> rfl

theorem insertAt_has (t : Target) (v : Node) (h : layoutVersion ∈ d.active) :
    layoutVersion ∈ (Data.insertAt t layoutVersion v d).active := by
  unfold Data.insertAt
  split
  · exact Finmap.mem_insert.mpr (.inl rfl)
  · split <;> exact h

/-- Only the rename of .layout_version itself takes it away. -/
theorem packEntry_has {m : SysId} {n : Name} (hn : n ≠ layoutVersion) (h : w.HasVersion) :
    (packEntry m n w).HasVersion := by
  unfold packEntry
  split
  · exact h
  · exact (Dir.mem_move_of_ne hn.symm).mpr h

theorem unpackEntry_has {u : SysId} {n : Name} (h : w.HasVersion) :
    (unpackEntry u n w).HasVersion := by
  unfold unpackEntry
  split
  · exact h
  · split
    · exact h
    · exact Dir.mem_move_dst h

/-! ## Scripts that do not -/

section Keeps

theorem opData_has {f : Data → Data}
    (hf : ∀ d, layoutVersion ∈ d.active → layoutVersion ∈ (f d).active)
    (htmp : ∀ d, (f d).tmp = d.tmp) : Keeps (Has Q) (opData f) := by
  refine .op fun w h => ⟨hf _ h.1, ?_⟩
  rw [World.updateData_data, htmp]
  exact h.2

theorem opData_hasVersion {f : Data → Data}
    (hf : ∀ d, layoutVersion ∈ d.active → layoutVersion ∈ (f d).active) :
    Keeps World.HasVersion (opData f) := .op fun w h => hf w.data h

theorem bindData_has : Keeps (Has Q) (bindData env) :=
  .bind (.get _) fun _ => .bind (.require _) fun _ => .bind (.op fun _ h => h) fun _ =>
    .bind (.get _) fun _ => .bind (.require _) fun _ => .op fun _ h => h

/-- What `dualdata_open` does before it finishes moves. -/
def openDirs (env : Env) : Script World Unit := do
  bindData env
  forM SysId.all fun k => opData (rmdirSealed k)
  forM SysId.all fun k => opData (rmdirLegacy k)

/-- And what it does after that. -/
def openRest : Script World Unit := do
  forM SysId.all dualdataMigrate
  when (fun w => w.data.hasSealed) (op fun w => { w with enabled := true })

theorem dualdataOpen_eq : dualdataOpen env =
    openDirs env >>= fun _ => forM SysId.all finishMove >>= fun _ => openRest := by
  simp only [dualdataOpen, openDirs, openRest, bind_assoc]

theorem openDirs_has : Keeps (Has Q) (openDirs env) :=
  .bind bindData_has fun _ => .bind
    (.forM fun k _ => opData_has (fun d h => by rwa [rmdirSealed_active]) (rmdirSealed_tmp k))
    fun _ => .forM fun k _ => opData_has (fun _ h => rmdirLegacy_has k h) (rmdirLegacy_tmp k)

theorem openRest_has : Keeps (Has Q) openRest := by
  refine .bind (.forM fun k _ => .when (.branch (opData_has ?_ fun _ => rfl) (opData_has ?_ ?_)))
    fun _ => .when (.op fun _ h => h)
  · exact fun _ h => eraseLegacy_has k h
  · exact fun _ h => mvLegacySealed_has k h
  · intro d
    unfold mvLegacySealed
    split <;> rfl

/-- Where there is no .tmp directory there is no move to finish. -/
theorem dualdataOpen_has (hQ : ∀ t, Q t → ∀ m, t m = none) : Keeps (Has Q) (dualdataOpen env) := by
  rw [dualdataOpen_eq]
  refine .bind openDirs_has fun _ => .bind (.forM fun m _ w h => ?_) fun _ => openRest_has
  exact finishMove_skip (hQ _ h.2 m) h

theorem dualdataReopen_has (hQ : ∀ t, Q t → ∀ m, t m = none) :
    Keeps (Has Q) (dualdataReopen env) := .bind (.op fun _ h => h) fun _ => dualdataOpen_has hQ

theorem createLayoutVersion_has (target : Target) :
    Keeps (Has Q) (dualdataCreateLayoutVersion target) := by
  have hinsert : ∀ v, Keeps (Has Q) (opData (Data.insertAt target layoutVersion v)) :=
    fun v => opData_has (fun _ h => insertAt_has target v h) (insertAt_tmp target _ v)
  exact .when (.branch (.bind (.get _) fun _ => .bind (hinsert _) fun _ => hinsert _) (hinsert _))

theorem dualdataEnable_has (hQ : ∀ t, Q t → ∀ m, t m = none) (current : Option SysId) :
    Keeps (Has Q) (dualdataEnable env current) := by
  refine .bind (.forM fun k _ => opData_has (fun d h => ?_) (enableSealed_tmp k)) fun _ =>
    .bind (dualdataReopen_has hQ) fun _ => .branch (.pure ()) ?_
  · rwa [enableSealed_active]
  · exact .bind (.get _) fun _ => .bind (opData_has (fun _ h => h) fun _ => rfl) fun _ =>
      createLayoutVersion_has _

theorem dualdataDisable_has (hQ : ∀ t, Q t → ∀ m, t m = none) :
    Keeps (Has Q) (dualdataDisable env) := by
  refine .bind (.forM fun k _ => opData_has (fun d h => ?_) (disableSealed_tmp k)) fun _ =>
    dualdataReopen_has hQ
  rwa [disableSealed_active]

/-- Unpacking brings entries, and takes none away. -/
theorem unpack_hasVersion (u : SysId) : Keeps World.HasVersion (unpack u) := by
  refine .bind (.when (opData_hasVersion fun d h => ?_)) fun _ =>
    .when (.bind (.bind (.get _) ?_) ?_)
  · unfold mvSealedTmp
    split <;> exact h
  · exact fun _ => .forM fun n _ => .op fun _ h => unpackEntry_has h
  · refine fun _ => opData_hasVersion fun d h => ?_
    unfold rmdirTmp
    split <;> exact h

end Keeps

/-! ## The parts of a command -/

/-- What a command does before it opens /data, and the system to switch to. -/
def Command.head (env : Env) : Command → Script World (Option SysId)
  | .set which | .save which => do
      require (← dualbootWrite env which)
      dualbootHacknodes env which
      mountData env
      pure which
  | .load => do
      let which ← Script.get fun w => dualbootRead w.misc
      dualbootHacknodes env (some which)
      mountData env
      pure (some which)
  | .get => pure none
  | .enabledualdata which => do
      mountData env
      pure which
  | .disabledualdata => do
      mountData env
      pure none

/-- What it does between the first opening of /data and the switch. -/
def Command.middle (env : Env) (which : Option SysId) : Command → Script World Unit
  | .enabledualdata _ => do
      dualdataEnable env which
      dualdataReopen env
  | .disabledualdata => do
      dualdataDisable env
      dualdataReopen env
  | _ => pure ()

def Command.endsInSwitch : Command → Bool
  | .get => false
  | .disabledualdata => false
  | _ => true

/-- The switch, and the end. -/
def Command.last (which : Option SysId) (c : Command) : Script World Unit := do
  if c.endsInSwitch then dualdataSwitchtodata which
  dualdataClose

theorem Command.script_eq (c : Command) : c.script env =
    c.head env >>= fun which => dualdataOpen env >>= fun _ => c.middle env which >>= fun _ =>
      c.last which := by
  cases c with
  | set which | save which =>
      simp only [script, doSet, recoverySave, bootInto, head, bind_assoc]
      rfl
  | load =>
      simp only [script, recoveryLoad, bootInto, head, bind_assoc]
      rfl
  | get => rfl
  | enabledualdata which =>
      simp only [script, recoveryEnabledualdata, head, middle, bind_assoc]
      rfl
  | disabledualdata =>
      simp only [script, recoveryDisabledualdata, head, middle, bind_assoc]
      rfl

theorem Command.head_has (c : Command) : Keeps (Has Q) (c.head env) := by
  let P : Data → (Nat → UInt8) → List Name → (Name → SysId) → Prop :=
    fun d _ _ _ => layoutVersion ∈ d.active ∧ Q d.tmp
  have hhack : ∀ which, Keeps (Has Q) (dualbootHacknodes env which) :=
    fun which => @dualbootHacknodes_keeps env P which
  have hmount : Keeps (Has Q) (mountData env) := @mountData_keeps env P
  have hwrite : ∀ which, Keeps (Has Q) (dualbootWrite env which) := fun which =>
    @dualbootWrite_keeps env (fun d _ _ => layoutVersion ∈ d.active ∧ Q d.tmp) which
  cases c with
  | set which | save which =>
      exact .bind (hwrite which) fun _ => .bind (.require _) fun _ => .bind (hhack which) fun _ =>
        .bind hmount fun _ => .pure _
  | load => exact .bind (.get _) fun _ => .bind (hhack _) fun _ => .bind hmount fun _ => .pure _
  | get => exact .pure _
  | enabledualdata which => exact .bind hmount fun _ => .pure _
  | disabledualdata => exact .bind hmount fun _ => .pure _

theorem Command.middle_has (hQ : ∀ t, Q t → ∀ m, t m = none) (which : Option SysId) (c : Command) :
    Keeps (Has Q) (c.middle env which) := by
  cases c with
  | enabledualdata => exact .bind (dualdataEnable_has hQ _) fun _ => dualdataReopen_has hQ
  | disabledualdata => exact .bind (dualdataDisable_has hQ) fun _ => dualdataReopen_has hQ
  | set | save | load | get => exact .pure ()

/-! ## Until it is taken -/

/-- Packing, until it is about to rename .layout_version. -/
def packUntil (m : SysId) : Script World Unit := do
  let names ← get fun w => glob w.data.active
  forM (names.take (names.idxOf layoutVersion)) fun n => op (packEntry m n)

/-- Opening, and what follows, until a move to be finished takes
.layout_version. -/
def openUntil (env : Env) (rest : Script World Unit) : Script World Unit := do
  openDirs env
  branch (fun w => (w.data.tmp .one).isSome) (packUntil .one) <|
    branch (fun w => (w.data.tmp .two).isSome) (packUntil .two) do
      openRest
      rest

def switchUntil : Option SysId → Script World Unit
  | none => when World.enabled exit
  | some u =>
      when World.enabled <| when (fun w => (w.data.sealed u.other).isNone) do
        opData (mkdirTmp u.other)
        packUntil u.other

/-- The operations of a command before the first that takes .layout_version
out of /data. -/
def Command.untilTaken (env : Env) (c : Command) : Script World Unit := do
  let which ← c.head env
  openUntil env do
    c.middle env which
    if c.endsInSwitch then switchUntil which else pure ()

section

variable {R : Script World Unit → Prop} (hR : ∀ m, R m)

include hR

theorem packUntil_opens (m : SysId) (g : Unit → Script World Unit) :
    Opens R (packUntil m) (packAll m >>= g) := by
  rw [packAll, bind_assoc]
  exact .bind _ fun names => .forM_take (hR _)

theorem openUntil_opens {rest' rest : Script World Unit} (h : Opens R rest' rest) :
    Opens R (openUntil env rest') (dualdataOpen env >>= fun _ => rest) := by
  rw [dualdataOpen_eq, bind_assoc]
  refine .bind _ fun _ => ?_
  have hfinish : ∀ {m : SysId} {g' : Script World Unit} {g : Unit → Script World Unit},
      Opens R g' (g ()) →
      Opens R (branch (fun w => (w.data.tmp m).isSome) (packUntil m) g') (finishMove m >>= g) := by
    intro m g' g hg
    rw [finishMove, when_bind, bind_assoc]
    exact .branch (packUntil_opens hR m _) hg
  simp only [SysId.all, List.forM_cons, List.forM_nil, bind_assoc]
  exact hfinish (hfinish (.bind _ fun _ => h))

theorem switchUntil_opens (which : Option SysId) :
    Opens R (switchUntil which) (dualdataSwitchtodata which >>= fun _ => dualdataClose) := by
  cases which with
  | none =>
      rw [dualdataSwitchtodata, when_bind]
      exact .branch .stop (.ret () (hR _))
  | some u =>
      rw [dualdataSwitchtodata, when_bind, bind_assoc, pack, when_bind, bind_assoc]
      refine .branch (.branch (.bind _ fun _ => ?_) (.ret () (hR _))) (.ret () (hR _))
      rw [bind_assoc]
      exact packUntil_opens hR _ _

theorem Command.untilTaken_opens (c : Command) : Opens R (c.untilTaken env) (c.script env) := by
  rw [c.script_eq]
  refine .bind _ fun which => openUntil_opens hR (.bind _ fun _ => ?_)
  unfold Command.last
  cases c.endsInSwitch with
  | true => exact switchUntil_opens hR which
  | false => exact .ret () (hR _)

end

theorem packUntil_hasVersion (m : SysId) : Keeps World.HasVersion (packUntil m) := by
  refine .bind (.get _) fun names => .forM fun n hn => .op fun _ h => packEntry_has ?_ h
  rintro rfl
  have hlt := (List.mem_take_iff_idxOf_lt (List.mem_of_mem_take hn)).mp hn
  exact absurd hlt (lt_irrefl _)

theorem Command.untilTaken_hasVersion (c : Command) :
    Keeps World.HasVersion (c.untilTaken env) := by
  intro w h
  rw [Command.untilTaken, wp_bind]
  refine wp_mono (@Command.head_has env (fun _ => True) c w ⟨h, trivial⟩) ?_ fun _ _ h' => h'.1
  intro which w₁ h₁
  rw [openUntil, wp_bind]
  refine wp_mono (@openDirs_has env (fun _ => True) w₁ h₁) ?_ fun _ _ h' => h'.1
  intro _ w₂ h₂
  refine wp_branch (fun _ => packUntil_hasVersion _ w₂ h₂.1) fun hone => wp_branch
    (fun _ => packUntil_hasVersion _ w₂ h₂.1) fun htwo => ?_
  -- no move is under way, and none begins before the switch
  have hsettled : Has (fun t => ∀ m, t m = none) w₂ := by
    refine ⟨h₂.1, (SysId.forall_iff .one).mpr ⟨?_, ?_⟩⟩
    · exact Option.isNone_iff_eq_none.mp (Option.isSome_eq_false_iff.mp hone)
    · exact Option.isNone_iff_eq_none.mp (Option.isSome_eq_false_iff.mp htwo)
  rw [wp_bind]
  refine wp_mono (openRest_has w₂ hsettled) ?_ fun _ _ h' => h'.1
  intro _ w₃ h₃
  rw [wp_bind]
  refine wp_mono (c.middle_has (fun _ h => h) which w₃ h₃) ?_ fun _ _ h' => h'.1
  intro _ w₄ h₄
  have hswitch : Keeps World.HasVersion (switchUntil which) := by
    cases which with
    | none => exact .when fun _ h => h
    | some u =>
        exact .when (.when (.bind (opData_hasVersion fun _ h => h) fun _ => packUntil_hasVersion _))
  split
  · exact hswitch w₄ h₄.1
  · exact h₄.1

/-! ## Until it is back -/

/-- A switch, until /data has a .layout_version again: that of the system it
unpacks or, if that has none, the one it makes. -/
def switchBack : Option SysId → Script World Unit
  | none => when World.enabled exit
  | some u =>
      when World.enabled do
        pack u.other
        when (fun w => (w.data.sealed u).isSome && (w.data.tmp u).isNone) (opData (mvSealedTmp u))
        branch (fun w => (w.data.tmp u).isSome)
          (do
            let names ← get fun w => ((w.data.tmp u).map glob).getD []
            if layoutVersion ∈ names then
              forM (names.take (names.idxOf layoutVersion + 1)) fun n => op (unpackEntry u n)
            else do
              forM names fun n => op (unpackEntry u n)
              opData (rmdirTmp u)
              dualdataCreateLayoutVersion .active)
          (dualdataCreateLayoutVersion .active)

/-- The operations of a command up to the one that gives /data a
.layout_version again. -/
def Command.untilBack (env : Env) (c : Command) : Script World Unit := do
  let which ← c.head env
  dualdataOpen env
  c.middle env which
  if c.endsInSwitch then switchBack which else pure ()

theorem rmdirTmp_hasVersion (u : SysId) : Keeps World.HasVersion (opData (rmdirTmp u)) := by
  refine opData_hasVersion fun d h => ?_
  unfold rmdirTmp
  split <;> exact h

theorem create_hasVersion : Keeps World.HasVersion (dualdataCreateLayoutVersion .active) := by
  intro w h
  exact wp_mono (@createLayoutVersion_has (fun _ => True) .active w ⟨h, trivial⟩)
    (fun _ _ h' => h'.1) fun _ _ h' => h'.1

theorem close_hasVersion : Keeps World.HasVersion dualdataClose := .op fun _ h => h

theorem switchBack_opens (which : Option SysId) : Opens (Keeps World.HasVersion)
    (switchBack which) (dualdataSwitchtodata which >>= fun _ => dualdataClose) := by
  cases which with
  | none =>
      rw [dualdataSwitchtodata, when_bind]
      exact .branch .stop (.ret () close_hasVersion)
  | some u =>
      rw [dualdataSwitchtodata, when_bind, switchBack, bind_assoc, bind_assoc]
      refine .branch (.bind _ fun _ => ?_) (.ret () close_hasVersion)
      rw [unpack, bind_assoc]
      refine .bind _ fun _ => ?_
      rw [when_bind, bind_assoc]
      refine .branch ?_ (.split _ fun _ => close_hasVersion)
      rw [unpackAll, bind_assoc]
      refine .bind _ fun names => ?_
      split
      · refine .forM_take (.bind (.forM fun n _ => .op fun _ h => unpackEntry_has h) fun _ => ?_)
        exact .bind (rmdirTmp_hasVersion u) fun _ => .bind create_hasVersion fun _ =>
          close_hasVersion
      · exact .bind _ fun _ => .bind _ fun _ => .split _ fun _ => close_hasVersion

theorem Command.untilBack_opens (c : Command) :
    Opens (Keeps World.HasVersion) (c.untilBack env) (c.script env) := by
  rw [c.script_eq]
  refine .bind _ fun which => .bind _ fun _ => .bind _ fun _ => ?_
  unfold Command.last
  cases c.endsInSwitch with
  | true => exact switchBack_opens which
  | false => exact .ret () close_hasVersion

theorem create_back :
    (dualdataCreateLayoutVersion .active).wp (fun _ => World.HasVersion)
      (fun why _ => why = .killed) w := by
  refine wp_mono createLayoutVersion_spec ?_ fun _ _ h => h.1
  rintro _ _ (⟨hmem, rfl⟩ | ⟨-, rfl⟩)
  · exact hmem
  · exact Finmap.mem_insert.mpr (.inl rfl)

/-- It is there, or it is still to come out of system-u.tmp. -/
def Coming (u : SysId) (rest : List Name) (w : World) : Prop :=
  w.HasVersion ∨ layoutVersion ∈ rest ∧ ∃ t, w.data.tmp u = some t ∧ layoutVersion ∈ t

theorem Coming.step {u : SysId} {n : Name} {rest : List Name} (h : Coming u (n :: rest) w) :
    Coming u rest (unpackEntry u n w) := by
  rcases h with h | ⟨hmem, t, ht, hlv⟩
  · exact .inl (unpackEntry_has h)
  by_cases hn : n = layoutVersion
  · subst hn
    refine .inl ?_
    have hne : layoutVersion ≠ "media" := by decide
    simp only [World.HasVersion, unpackEntry, ht, if_neg hne]
    exact Dir.mem_move_done hlv
  · refine .inr ⟨(List.mem_cons.mp hmem).resolve_left (Ne.symm hn), ?_⟩
    unfold unpackEntry
    rw [ht]
    dsimp only
    split
    · exact ⟨t, ht, hlv⟩
    · exact ⟨_, Data.withMove_tmp .., (Dir.mem_move_of_ne (Ne.symm hn)).mpr hlv⟩

/-- With dual data on, a switch brings one back. -/
theorem switchBack_back {u : SysId} (hen : w.enabled = true) :
    (switchBack (some u)).wp (fun _ => World.HasVersion) (fun why _ => why = .killed) w := by
  have hnoExit : ∀ {m : Script World Unit} {g : Unit → Script World Unit} {w : World}, NoExit m →
      (∀ w', (g ()).wp (fun _ => World.HasVersion) (fun why _ => why = .killed) w') →
      (m >>= g).wp (fun _ => World.HasVersion) (fun why _ => why = .killed) w := by
    intro m g w hm hg
    rw [wp_bind]
    exact wp_mono (hm w) (fun _ w' _ => hg w') fun _ _ h => h
  have hpack : NoExit (pack u.other) :=
    .when (.bind (.op _) fun _ => .bind (.bind (.get _) fun _ => .forM fun _ => .op _) fun _ =>
      .op _)
  refine wp_when (fun _ => ?_) fun hno => by rw [hen] at hno; cases hno
  refine hnoExit hpack fun w₁ => hnoExit (.when (.op _)) fun w₂ => ?_
  refine wp_branch (fun hsome => ?_) fun _ => create_back
  obtain ⟨t, ht⟩ := Option.isSome_iff_exists.mp hsome
  rw [wp_bind, wp_get, ht, Option.map_some, Option.getD_some]
  split
  · next hmem =>
      refine wp_mono (wp_forM (Coming u) (fun n rest w h => ⟨rfl, h.step⟩) ?_) ?_ fun _ _ h => h
      · refine .inr ⟨(List.mem_take_iff_idxOf_lt hmem).mpr (Nat.lt_succ_self _), t, ht, ?_⟩
        exact mem_glob.mp hmem
      · rintro _ w₃ (h | ⟨hnil, -⟩)
        · exact h
        · cases hnil
  · exact hnoExit (.forM fun _ => .op _) fun _ => hnoExit (.op _) fun _ => create_back

/-- It is there, or something is put away, so that dual data is on. -/
def Recoverable (d : Data) : Prop :=
  layoutVersion ∈ d.active ∨ ∃ k s, d.sealed k = some s ∧ s ≠ ∅

namespace Recoverable

variable {d' : Data}

theorem of_kept (h : Recoverable d) (hactive : layoutVersion ∈ d.active → layoutVersion ∈ d'.active)
    (hsealed : ∀ k s, d.sealed k = some s → s ≠ ∅ → ∃ s', d'.sealed k = some s' ∧ s' ≠ ∅) :
    Recoverable d' := by
  rcases h with h | ⟨k, s, hs, hne⟩
  · exact .inl (hactive h)
  · obtain ⟨s', hs', hne'⟩ := hsealed k s hs hne
    exact .inr ⟨k, s', hs', hne'⟩

theorem insert_ne_empty {s : Entries} {n : Name} {v : Node} : s.insert n v ≠ ∅ := by
  intro h
  have hn : n ∈ s.insert n v := Finmap.mem_insert.mpr (.inl rfl)
  rw [h] at hn
  exact Finmap.notMem_empty hn

theorem rmdirSealed (h : Recoverable d) (k : SysId) : Recoverable (rmdirSealed k d) := by
  refine h.of_kept (fun h => by rwa [rmdirSealed_active]) fun j s hs hne => ⟨s, ?_, hne⟩
  by_cases hj : j = k
  · subst hj
    rw [rmdirSealed_self, hs, if_neg]
    rwa [Option.some.injEq]
  · rw [rmdirSealed_of_ne hj, hs]

theorem rmdirLegacy (h : Recoverable d) (k : SysId) : Recoverable (rmdirLegacy k d) :=
  h.of_kept (rmdirLegacy_has k) fun j s hs hne => ⟨s, by rw [rmdirLegacy_sealed, hs], hne⟩

theorem migrate (h : Recoverable d) (k : SysId) : Recoverable (migrate k d) := by
  rcases migrate_cases k d with ⟨-, heq⟩ | ⟨es, s, -, hs, heq⟩ <;> rw [heq]
  · exact h
  · refine h.of_kept (eraseLegacy_has k) fun j s' hs' hne => ⟨s', ?_, hne⟩
    by_cases hj : j = k
    · subst hj
      rw [hs', Option.some_or] at hs
      exact (Function.update_self ..).trans hs.symm
    · exact (Function.update_of_ne hj _ _).trans hs'

theorem enableSealed (h : Recoverable d) (k : SysId) : Recoverable (enableSealed k d) := by
  refine h.of_kept (fun h => by rwa [enableSealed_active]) fun j s hs hne => ⟨s, ?_, hne⟩
  unfold Dualboot.enableSealed
  split
  · next hnone =>
      by_cases hj : j = k
      · subst hj
        rw [hs] at hnone
        cases hnone
      · exact (Function.update_of_ne hj _ _).trans hs
  · exact hs

theorem mkdirSealed (h : Recoverable d) (k : SysId) : Recoverable (mkdirSealed k d) := by
  refine h.of_kept id fun j s hs hne => ⟨s, ?_, hne⟩
  by_cases hj : j = k
  · subst hj
    refine (Function.update_self ..).trans ?_
    rw [hs, Option.getD_some]
  · exact (Function.update_of_ne hj _ _).trans hs

theorem insertAt (h : Recoverable d) (t : Target) (v : Node) :
    Recoverable (Data.insertAt t layoutVersion v d) := by
  refine h.of_kept (insertAt_has t v) fun j s hs hne => ?_
  cases t with
  | active => exact ⟨s, hs, hne⟩
  | sealed k =>
      by_cases hj : j = k
      · subst hj
        simp only [Data.insertAt, hs]
        exact ⟨_, Function.update_self .., insert_ne_empty⟩
      · refine ⟨s, ?_, hne⟩
        unfold Data.insertAt
        dsimp only
        split
        · exact hs
        · exact (Function.update_of_ne hj _ _).trans hs

/-- What is moved is there afterwards, if in a sealed directory. -/
theorem mvTmpSealed {m : SysId} (h : Recoverable w.data ∨
      ∃ t, w.data.tmp m = some t ∧ layoutVersion ∈ t) : Recoverable (mvTmpSealed m w).data := by
  unfold Dualboot.mvTmpSealed
  split
  · next hnone =>
      refine h.resolve_right ?_
      rintro ⟨t, ht, -⟩
      rw [ht] at hnone
      cases hnone
  · next t ht =>
      have hmem : ¬ Recoverable w.data → layoutVersion ∈ t := by
        intro hno
        obtain ⟨t', ht', hlv⟩ := h.resolve_left hno
        rw [ht, Option.some.injEq] at ht'
        rwa [ht']
      split
      · next hs =>
          by_cases hrec : Recoverable w.data
          · refine hrec.of_kept id fun j s hs' hne => ⟨s, ?_, hne⟩
            refine (Function.update_of_ne ?_ _ _).trans hs'
            rintro rfl
            rw [hs] at hs'
            cases hs'
          · refine .inr ⟨m, t, Function.update_self .., fun hempty => ?_⟩
            have hlv := hmem hrec
            rw [hempty] at hlv
            exact Finmap.notMem_empty hlv
      · next s hs =>
          dsimp only
          split
          · exact .inr ⟨m, _, Function.update_self .., insert_ne_empty⟩
          · next hrefused =>
              -- it is refused only where there is such an entry already
              refine .inr ⟨m, s, hs, ?_⟩
              rintro rfl
              rw [Finmap.lookup_empty] at hrefused
              exact hrefused rfl

end Recoverable

/-- A script with /data mounted. -/
def Mounted (w : World) : Prop := w.mounted = true ∧ Recoverable w.data

theorem opData_mounted {f : Data → Data} (hf : ∀ d, Recoverable d → Recoverable (f d)) :
    Keeps Mounted (opData f) := .op fun w h => ⟨h.1, hf w.data h.2⟩

theorem mvTmpSealed_flags (m : SysId) (w : World) :
    (mvTmpSealed m w).mounted = w.mounted ∧ (mvTmpSealed m w).enabled = w.enabled := by
  unfold mvTmpSealed
  split
  · exact ⟨rfl, rfl⟩
  · split
    · exact ⟨rfl, rfl⟩
    · dsimp only
      split <;> exact ⟨rfl, rfl⟩

theorem packEntry_frame (m : SysId) (n : Name) (w : World) :
    (packEntry m n w).mounted = w.mounted ∧ (packEntry m n w).enabled = w.enabled ∧
      (packEntry m n w).data.sealed = w.data.sealed := by
  unfold packEntry
  split <;> exact ⟨rfl, rfl, rfl⟩

/-- In the course of packing the file may be in the .tmp directory. -/
def Going (m : SysId) (w : World) : Prop :=
  w.mounted = true ∧
    (Recoverable w.data ∨ ∃ t, w.data.tmp m = some t ∧ layoutVersion ∈ t)

theorem Going.step {m : SysId} {n : Name} (h : Going m w) : Going m (packEntry m n w) := by
  obtain ⟨hmounted, h⟩ := h
  refine ⟨(packEntry_frame m n w).1.trans hmounted, ?_⟩
  have hsealed : ∀ {k s}, w.data.sealed k = some s → s ≠ ∅ →
      Recoverable (packEntry m n w).data :=
    fun hs hne => .inr ⟨_, _, by rw [(packEntry_frame m n w).2.2]; exact hs, hne⟩
  unfold packEntry at hsealed ⊢
  cases ht : w.data.tmp m with
  | none =>
      rw [ht] at h
      exact .inl (h.resolve_right (by rintro ⟨t, hno, -⟩; cases hno))
  | some t =>
      simp only [ht] at hsealed ⊢
      rcases h with (h | ⟨k, s, hs, hne⟩) | ⟨t', ht', hlv⟩
      · rcases Dir.mem_move_either.mpr (Or.inl h) with h' | h'
        · exact .inl (.inl h')
        · exact .inr ⟨_, Data.withMove_tmp .., h'⟩
      · exact .inl (hsealed hs hne)
      · rw [ht, Option.some.injEq] at ht'
        subst ht'
        exact .inr ⟨_, Data.withMove_tmp .., Dir.mem_move_dst hlv⟩

theorem finishMove_back {m : SysId} (h : Mounted w) :
    (finishMove m).wp (fun _ => Mounted) (fun why _ => why = .killed) w := by
  refine wp_when (fun _ => ?_) fun _ => h
  have hgoing : Keeps (Going m) (packAll m) :=
    .bind (.get _) fun _ => .forM fun n _ => .op fun _ h => h.step
  have hpack : NoExit (packAll m) := .bind (.get _) fun _ => .forM fun _ => .op _
  rw [wp_bind]
  refine wp_mono (hgoing.ends hpack ⟨h.1, .inl h.2⟩) ?_ fun _ _ hk => hk
  intro _ w₁ h₁
  exact ⟨rfl, (mvTmpSealed_flags m w₁).1.trans h₁.1, Recoverable.mvTmpSealed h₁.2⟩

/-- No bind mount fails. -/
def Binds (env : Env) : Prop := ∀ n, env.fails (.bind n) = false

theorem bindData_back (h : Mounted w) (hexit : w.HasVersion ∨ Binds env) :
    (bindData env).wp (fun _ w' => Mounted w' ∧ w'.enabled = false)
      (fun why w' => why = .exit → w'.HasVersion) w := by
  have hmounted : Keeps (fun w => w.mounted = true) (bindData env) :=
    .bind (.get _) fun _ => .bind (.require _) fun _ => .bind (.op fun _ h => h) fun _ =>
      .bind (.get _) fun _ => .bind (.require _) fun _ => .op fun _ h => h
  refine wp_mono (wp_and (hmounted w h.1) bindData_spec) ?_ ?_
  · rintro _ w' ⟨hm, hsame, hen, -⟩
    exact ⟨⟨hm, by rw [hsame.data]; exact h.2⟩, hen⟩
  · rintro why w' ⟨-, hsame, hblocked⟩ hwhy
    rcases hexit with hv | hbinds
    · rw [World.HasVersion, hsame.data]
      exact hv
    · rcases hblocked hwhy with hno | hno
      · rw [h.1] at hno
        cases hno
      · rw [hbinds] at hno
        cases hno

theorem finishMove_enabled (m : SysId) (b : Bool) :
    Keeps (fun w => w.enabled = b) (finishMove m) := by
  refine .when (.bind (.bind (.get _) fun _ => .forM fun n _ => .op ?_) fun _ => .op ?_)
  · exact fun w h => (packEntry_frame m n w).2.1.trans h
  · exact fun w h => (mvTmpSealed_flags m w).2.trans h

/-- After opening, either the file is there or dual data is on. -/
theorem dualdataOpen_back (h : Mounted w) (hexit : w.HasVersion ∨ Binds env) :
    (dualdataOpen env).wp (fun _ w' => Mounted w' ∧ w'.enabled = w'.data.hasSealed)
      (fun why w' => why = .exit → w'.HasVersion) w := by
  let I : World → Prop := fun w => Mounted w ∧ w.enabled = false
  have hop : ∀ {f : Data → Data}, (∀ d, Recoverable d → Recoverable (f d)) → Keeps I (opData f) :=
    fun hf => .op fun w h => ⟨⟨h.1.1, hf _ h.1.2⟩, h.2⟩
  have hkilled : ∀ {w'}, ∀ why, why = Stop.killed → why = .exit → World.HasVersion w' := by
    rintro w' _ rfl
    exact Stop.of_killed_eq_exit
  rw [dualdataOpen, wp_bind]
  refine wp_mono (bindData_back h hexit) ?_ fun _ _ h' => h'
  intro _ w₁ h₁
  have hrm : Keeps I (forM SysId.all fun k => opData (rmdirSealed k)) :=
    .forM fun k _ => hop fun _ h => h.rmdirSealed k
  rw [wp_bind]
  refine wp_mono (hrm.ends (.forM fun _ => .op _) h₁) ?_ fun why _ => hkilled why
  intro _ w₂ h₂
  have hrmLegacy : Keeps I (forM SysId.all fun k => opData (rmdirLegacy k)) :=
    .forM fun k _ => hop fun _ h => h.rmdirLegacy k
  rw [wp_bind]
  refine wp_mono (hrmLegacy.ends (.forM fun _ => .op _) h₂) ?_ fun why _ => hkilled why
  intro _ w₃ h₃
  have hfinish : ∀ {m w}, I w → (finishMove m).wp (fun _ => I) (fun why _ => why = .killed) w := by
    intro m w h
    refine wp_mono (wp_and (finishMove_back h.1) (finishMove_enabled m false w h.2)) ?_ ?_
    · exact fun _ _ h' => h'
    · exact fun _ _ h' => h'.1
  rw [wp_bind, wp_forM_all]
  refine wp_mono (hfinish h₃) ?_ fun why _ => hkilled why
  intro _ w₄ h₄
  refine wp_mono (hfinish h₄) ?_ fun why _ => hkilled why
  intro _ w₅ h₅
  have hmigrate : ∀ {k w}, I w →
      (dualdataMigrate k).wp (fun _ => I) (fun why _ => why = .killed) w := by
    intro k w h
    refine wp_mono (dualdataMigrate_spec k) ?_ fun _ _ h' => h'.1
    rintro _ _ rfl
    exact ⟨⟨h.1.1, h.1.2.migrate k⟩, h.2⟩
  rw [wp_bind, wp_forM_all]
  refine wp_mono (hmigrate h₅) ?_ fun why _ => hkilled why
  intro _ w₆ h₆
  refine wp_mono (hmigrate h₆) ?_ fun why _ => hkilled why
  rintro _ w₇ ⟨h₇, hoff⟩
  refine wp_when (fun hsome => ?_) fun hnone => ⟨h₇, hoff.trans hnone.symm⟩
  exact ⟨Stop.of_killed_eq_exit, h₇, hsome.symm⟩

theorem dualdataReopen_back (h : Mounted w) (hbinds : Binds env) :
    (dualdataReopen env).wp (fun _ w' => Mounted w' ∧ w'.enabled = w'.data.hasSealed)
      (fun why w' => why = .exit → w'.HasVersion) w :=
  ⟨Stop.of_killed_eq_exit, dualdataOpen_back (w := { w with enabled := false }) h (.inr hbinds)⟩

theorem createLayoutVersion_mounted (target : Target) :
    Keeps Mounted (dualdataCreateLayoutVersion target) := by
  have hinsert : ∀ v, Keeps Mounted (opData (Data.insertAt target layoutVersion v)) :=
    fun v => opData_mounted fun _ h => h.insertAt target v
  exact .when (.branch (.bind (.get _) fun _ => .bind (hinsert _) fun _ => hinsert _) (hinsert _))

theorem createLayoutVersion_noExit (target : Target) :
    NoExit (dualdataCreateLayoutVersion target) :=
  .when (.branch (.bind (.get _) fun _ => .bind (.op _) fun _ => .op _) (.op _))

theorem dualdataEnable_back (h : Mounted w) (hbinds : Binds env) (current : Option SysId) :
    (dualdataEnable env current).wp (fun _ => Mounted) (fun why w' => why = .exit → w'.HasVersion)
      w := by
  have hkilled : ∀ {w'}, ∀ why, why = Stop.killed → why = .exit → World.HasVersion w' := by
    rintro w' _ rfl
    exact Stop.of_killed_eq_exit
  have henable : Keeps Mounted (forM SysId.all fun k => opData (enableSealed k)) :=
    .forM fun k _ => opData_mounted fun _ h => h.enableSealed k
  rw [dualdataEnable, wp_bind]
  refine wp_mono (henable.ends (.forM fun _ => .op _) h) ?_ fun why _ => hkilled why
  intro _ w₁ h₁
  rw [wp_bind]
  refine wp_mono (dualdataReopen_back h₁ hbinds) ?_ fun _ _ h' => h'
  rintro _ w₂ ⟨h₂, -⟩
  refine wp_branch (fun _ => h₂) fun _ => ?_
  rw [wp_bind, wp_get, wp_bind]
  refine wp_mono ((opData_mounted fun _ h => h.mkdirSealed _).ends (.op _) h₂) ?_
    fun why _ => hkilled why
  intro _ w₃ h₃
  exact wp_mono ((createLayoutVersion_mounted _).ends (createLayoutVersion_noExit _) h₃)
    (fun _ _ h' => h') fun why _ => hkilled why

/-- The commands that bring back what they take away. -/
def Command.Returns (env : Env) : Command → Prop
  | .set _ | .save _ | .load => True
  | .enabledualdata which => which ≠ none ∧ Binds env
  | .get | .disabledualdata => False

theorem Command.head_back {c : Command} (h : w.HasVersion) (hback : c.Returns env) :
    (c.head env).wp (fun which w' => which ≠ none ∧ w'.HasVersion ∧ w'.mounted = true)
      (fun _ w' => w'.HasVersion) w := by
  let P : Data → (Nat → UInt8) → List Name → (Name → SysId) → Prop :=
    fun d _ _ _ => layoutVersion ∈ d.active
  have hmount : ∀ {which : Option SysId} {w : World}, which ≠ none → w.HasVersion →
      (mountData env >>= fun _ => (pure which : Script World (Option SysId))).wp
        (fun which w' => which ≠ none ∧ w'.HasVersion ∧ w'.mounted = true)
        (fun _ w' => w'.HasVersion) w := by
    intro which w hne h
    rw [mountData, wp_bind, wp_bind]
    exact wp_require (fun _ => ⟨h, hne, h, rfl⟩) fun _ => h
  have hhack : ∀ {which : Option SysId} {w : World}, which ≠ none → w.HasVersion →
      (dualbootHacknodes env which >>= fun _ => mountData env >>= fun _ =>
        (pure which : Script World (Option SysId))).wp
        (fun which w' => which ≠ none ∧ w'.HasVersion ∧ w'.mounted = true)
        (fun _ w' => w'.HasVersion) w := by
    intro which w hne h
    rw [wp_bind]
    exact wp_mono (dualbootHacknodes_keeps (P := P) which w h) (fun _ _ h' => hmount hne h')
      fun _ _ h' => h'
  have hset : ∀ which, (dualbootWrite env which >>= fun ok => require ok >>= fun _ =>
      dualbootHacknodes env which >>= fun _ => mountData env >>= fun _ =>
        (pure which : Script World (Option SysId))).wp
        (fun which w' => which ≠ none ∧ w'.HasVersion ∧ w'.mounted = true)
        (fun _ w' => w'.HasVersion) w := by
    intro which
    rw [wp_bind]
    cases which with
    | none => exact h
    | some u =>
        refine wp_mono (dualbootWrite_keeps (P := fun d _ _ => layoutVersion ∈ d.active) (some u)
          w h) ?_ fun _ _ h' => h'
        intro ok w₁ h₁
        rw [wp_bind]
        exact wp_require (fun _ => hhack (Option.some_ne_none u) h₁) fun _ => h₁
  cases c with
  | set which => exact hset which
  | save which => exact hset which
  | load =>
      rw [Command.head, wp_bind, wp_get]
      exact hhack (Option.some_ne_none _) h
  | enabledualdata which => exact hmount hback.1 h
  | get | disabledualdata => exact hback.elim

/-- Not killed before, they have brought it back, or not taken it. -/
theorem Command.untilBack_back {c : Command} (h : w.HasVersion) (hback : c.Returns env) :
    (c.untilBack env).wp (fun _ => World.HasVersion) (fun why w' => why = .exit → w'.HasVersion)
      w := by
  rw [Command.untilBack, wp_bind]
  refine wp_mono (head_back h hback) ?_ fun _ _ h' _ => h'
  rintro which w₁ ⟨hwhich, h₁, hmounted₁⟩
  have hm₁ : Mounted w₁ := ⟨hmounted₁, .inl h₁⟩
  rw [wp_bind]
  refine wp_mono (dualdataOpen_back hm₁ (.inl h₁)) ?_ fun _ _ h' => h'
  intro _ w₂ h₂
  -- opened again or not, `DUALDATA_ENABLED` says whether something is sealed
  have hmiddle : (c.middle env which).wp (fun _ w' => Mounted w' ∧ w'.enabled = w'.data.hasSealed)
      (fun why w' => why = .exit → w'.HasVersion) w₂ := by
    cases c with
    | set | save | load => exact h₂
    | get | disabledualdata => exact hback.elim
    | enabledualdata =>
        rw [middle, wp_bind]
        refine wp_mono (dualdataEnable_back h₂.1 hback.2 _) ?_ fun _ _ h' => h'
        exact fun _ w₃ h₃ => dualdataReopen_back h₃ hback.2
  have hends : c.endsInSwitch = true := by
    cases c with
    | set | save | load | enabledualdata => rfl
    | get | disabledualdata => exact hback.elim
  rw [wp_bind]
  refine wp_mono hmiddle ?_ fun _ _ h' => h'
  rintro _ w₄ ⟨⟨-, hrec⟩, hen⟩
  rw [if_pos hends]
  obtain ⟨u, rfl⟩ := Option.ne_none_iff_exists'.mp hwhich
  cases hon : w₄.enabled with
  | true =>
      refine wp_mono (switchBack_back hon) (fun _ _ h' => h') ?_
      rintro _ _ rfl
      exact Stop.of_killed_eq_exit
  | false =>
      refine wp_when (fun hno => by rw [hon] at hno; cases hno) fun _ => hrec.resolve_right ?_
      rintro ⟨k, s, hs, -⟩
      have hsome : w₄.data.hasSealed = true :=
        hasSealed_iff.mpr ⟨k, by rw [hs]; exact Option.some_ne_none s⟩
      rw [← hen, hon] at hsome
      cases hsome

end Pisces.Dualboot
