import Pisces.Dualboot.Present

/-!
# Commands that spare .layout_version

Whether /data still has its .layout_version after a command follows from what
the command finds and from when it is killed: it packs nothing, or it is killed
before the file goes, or it is one that brings one back and is not killed before
that. Which of the commands that turn dual data on pack is the hard part: a
system can be put away in its own directory, in a legacy one or in its .disabled
one, or be made new.
-/

namespace Pisces.Dualboot

open Pisces.Lib Pisces.Lib.Script

variable {env : Env} {w : World} {d : Data} {k u : SysId}

/-! ## Commands that pack nothing -/

/-- The system a command switches to in the end. -/
def Command.goal (misc : Nat → UInt8) : Command → Option SysId
  | .set which | .save which | .enabledualdata which => which
  | .load => some (dualbootRead misc)
  | .get | .disabledualdata => none

/-- What a switch finds put away of system `k` when dual data has been turned
on. -/
def Data.storedOrOff (d : Data) (k : SysId) : Option Entries :=
  (d.stored k).or (if d.disabled k = some ∅ then none else d.disabled k)

def Command.finds (d : Data) : Command → SysId → Option Entries
  | .enabledualdata _ => d.storedOrOff
  | _ => d.stored

/-- The command packs the active entries: it switches to a system that is put
away while the other is not. -/
def Command.Packs (w : World) (c : Command) : Prop :=
  ∃ u, c.goal w.misc = some u ∧ c.finds w.data u.other = none ∧ c.finds w.data u ≠ none

theorem Command.head_spec (c : Command) :
    (c.head env).wp (fun which w' => which = c.goal w.misc ∧ w'.data = w.data)
      (fun _ w' => w'.data = w.data) w := by
  have hhack : ∀ {which : Option SysId} {w' : World}, w'.data = w.data →
      (dualbootHacknodes env which >>= fun _ => mountData env >>= fun _ =>
        (pure which : Script World (Option SysId))).wp
        (fun which' w' => which' = which ∧ w'.data = w.data) (fun _ w' => w'.data = w.data) w' := by
    intro which w' hw'
    rw [wp_bind]
    refine wp_mono (dualbootHacknodes_keeps (P := fun d _ _ _ => d = w.data) which w' hw') ?_
      fun _ _ h => h
    intro _ w₁ hw₁
    rw [wp_bind]
    exact wp_mono (mountData_keeps (P := fun d _ _ _ => d = w.data) w₁ hw₁) (fun _ _ h => ⟨rfl, h⟩)
      fun _ _ h => h
  have hset : ∀ which, (dualbootWrite env which >>= fun ok => require ok >>= fun _ =>
      dualbootHacknodes env which >>= fun _ => mountData env >>= fun _ =>
        (pure which : Script World (Option SysId))).wp
        (fun which' w' => which' = which ∧ w'.data = w.data) (fun _ w' => w'.data = w.data) w := by
    intro which
    rw [wp_bind]
    refine wp_mono (dualbootWrite_keeps (P := fun d _ _ => d = w.data) which w rfl) ?_
      fun _ _ h => h
    intro ok w₁ hw₁
    rw [wp_bind]
    exact wp_require (fun _ => hhack hw₁) fun _ => hw₁
  have hmount : ∀ which : Option SysId, (mountData env >>= fun _ =>
      (pure which : Script World (Option SysId))).wp
      (fun which' w' => which' = which ∧ w'.data = w.data) (fun _ w' => w'.data = w.data) w := by
    intro which
    rw [wp_bind]
    exact wp_mono (mountData_keeps (P := fun d _ _ _ => d = w.data) w rfl) (fun _ _ h => ⟨rfl, h⟩)
      fun _ _ h => h
  cases c with
  | set which => exact hset which
  | save which => exact hset which
  | load =>
      rw [head, wp_bind, wp_get]
      exact hhack rfl
  | get => exact ⟨rfl, rfl⟩
  | enabledualdata which => exact hmount which
  | disabledualdata => exact hmount none

theorem legacyDir_migrated (d : Data) (k : SysId) : (migrated d).legacyDir k = none := by
  rw [migrated, migrate_legacyDir, migrate_legacyDir]
  cases k <;> rfl

theorem stored_ne_empty (d : Data) (k : SysId) : d.stored k ≠ some ∅ := by
  unfold Data.stored
  split
  · split
    · rintro ⟨⟩
    · rintro ⟨⟩
    · next es hne _ =>
        intro hempty
        rw [Option.some.injEq] at hempty
        cases es with
        | nil => exact hne rfl
        | cons e es =>
            have hmem : e.1 ∈ Entries.ofList (e :: es) := by
              refine Finmap.mem_of_lookup_eq_some (b := e.2) ?_
              rw [Entries.ofList, List.map_cons, Finmap.dlookup_list_toFinmap]
              exact List.dlookup_cons_eq ..
            rw [hempty] at hmem
            exact Finmap.notMem_empty hmem
  · next h => exact fun hempty => h (.inr hempty)

/-- With no legacy directory, only an empty directory does not count. -/
theorem stored_of_none (h : d.legacyDir k = none) :
    d.stored k = if d.sealed k = some ∅ then none else d.sealed k := by
  rw [Data.stored, h]
  split
  · next hs =>
      rcases hs with hs | hs
      · rw [hs, if_neg (by rintro ⟨⟩)]
      · rw [if_pos hs]
  · next hs => rw [if_neg fun h => hs (.inr h)]

theorem enableSealed_sealed (j k : SysId) (d : Data) : (enableSealed j d).sealed k =
    if k = j then (d.sealed k).or (d.disabled k) else d.sealed k := by
  unfold enableSealed
  split
  · next s hd hs =>
      split
      · next hk =>
          rw [hk, hs, hd, Option.none_or]
          exact Function.update_self ..
      · next hk => exact Function.update_of_ne hk _ _
  · next hno =>
      split
      · next hk =>
          subst hk
          cases hs : d.sealed k with
          | some s => rw [Option.some_or]
          | none =>
              cases hd : d.disabled k with
              | none => rfl
              | some s => exact absurd hs (hno s hd)
      · rfl

theorem enableSealed_disabled {j k : SysId} (h : k ≠ j) (d : Data) :
    (enableSealed j d).disabled k = d.disabled k := by
  unfold enableSealed
  split
  · exact Function.update_of_ne h _ _
  · rfl

theorem migrate_disabled (k : SysId) (d : Data) : (migrate k d).disabled = d.disabled := by
  rcases migrate_cases k d with ⟨-, h⟩ | ⟨es, s, -, -, h⟩ <;> rw [h]

theorem migrated_disabled (d : Data) : (migrated d).disabled = d.disabled := by
  have hsealed : ∀ k d, (rmdirSealed k d).disabled = d.disabled := by
    intro k d
    unfold rmdirSealed
    split <;> rfl
  have hlegacy : ∀ k d, (rmdirLegacy k d).disabled = d.disabled := by
    intro k d
    unfold rmdirLegacy
    split <;> rfl
  rw [migrated, migrate_disabled, migrate_disabled, prepared, hlegacy, hlegacy, cleaned, hsealed,
    hsealed]

/-- What a reopening finds after both renames. -/
theorem enableAll_stored (d : Data) (k : SysId) :
    (enableSealed .two (enableSealed .one (migrated d))).stored k = d.storedOrOff k := by
  have hactive : (enableSealed .two (enableSealed .one (migrated d))).active =
      (migrated d).active := by rw [enableSealed_active, enableSealed_active]
  have hsealed : (enableSealed .two (enableSealed .one (migrated d))).sealed k =
      (d.stored k).or (d.disabled k) := by
    have hdisabled := congrFun (migrated_disabled d) k
    rw [enableSealed_sealed, enableSealed_sealed, ← migrated_sealed, ← hdisabled]
    cases k with
    | one => rfl
    | two => rw [if_pos rfl, if_neg (by decide), enableSealed_disabled (by decide)]
  rw [stored_of_none ((legacyDir_congr hactive k).trans (legacyDir_migrated d k)), hsealed,
    Data.storedOrOff]
  cases hs : d.stored k with
  | none => rw [Option.none_or, Option.none_or]
  | some s =>
      rw [Option.some_or, Option.some_or, if_neg]
      rw [← hs]
      exact stored_ne_empty d k

/-- Reopened where no move is under way. -/
theorem dualdataReopen_settled (hsettled : w.data.Settled) :
    (dualdataReopen env).wp
      (fun _ w' => w'.data = migrated w.data ∧ w'.enabled = w'.data.hasSealed)
      (fun _ _ => True) w := by
  refine ⟨trivial, wp_mono (dualdataOpen_settled (w := { w with enabled := false }) hsettled) ?_
    fun _ _ _ => trivial⟩
  rintro _ w' ⟨hdata, -, -, -, hen⟩
  exact ⟨hdata, hen⟩

/-- The new directory gets a .layout_version, and so it is not empty. -/
theorem createSealed_spec {s : Entries} (hs : w.data.sealed k = some s) :
    (dualdataCreateLayoutVersion (.sealed k)).wp
      (fun _ w' => ∃ s', w'.data.sealed k = some s' ∧ layoutVersion ∈ s') (fun _ _ => True) w := by
  have hinsert : ∀ {w : World} {s : Entries} (v : Node), w.data.sealed k = some s →
      (w.updateData (Data.insertAt (.sealed k) layoutVersion v)).data.sealed k =
        some (s.insert layoutVersion v) := by
    intro w s v hs
    simp only [World.updateData_data, Data.insertAt, hs]
    exact Function.update_self ..
  have hmem : ∀ {s : Entries} {v : Node}, layoutVersion ∈ s.insert layoutVersion v :=
    Finmap.mem_insert.mpr (.inl rfl)
  refine wp_when (fun _ => wp_branch (fun _ => ?_) fun _ => ?_) fun hhas => ⟨s, hs, ?_⟩
  · rw [wp_bind, wp_get, wp_bind, wp_opData, wp_opData]
    exact ⟨trivial, trivial, _, hinsert _ (hinsert _ hs), hmem⟩
  · exact ⟨trivial, _, hinsert _ hs, hmem⟩
  · simp only [Data.hasFile, Data.dirAt, hs, Bool.not_eq_false', decide_eq_true_eq] at hhas
    exact hhas

theorem stored_of_mem {s : Entries} (hs : d.sealed k = some s) {n : Name} (hn : n ∈ s) :
    d.stored k = some s := by
  rw [Data.stored, if_neg, hs]
  rintro (hno | hno) <;> rw [hs] at hno
  · cases hno
  · rw [Option.some.inj hno] at hn
    exact Finmap.notMem_empty hn

/-- With dual data on one of the two is put away, and if it is not the other
system, then neither is. -/
theorem there_of_hasSealed {f : SysId → Option Entries} (hsealed : ∀ k, d.sealed k = f k)
    (hno : ¬ (f u.other = none ∧ f u ≠ none)) (hon : d.hasSealed = true) :
    d.sealed u.other ≠ none := by
  obtain ⟨k, hk⟩ := hasSealed_iff.mp hon
  rcases SysId.eq_or_other u k with rfl | rfl
  · intro hnone
    rw [hsealed] at hk hnone
    exact hno ⟨hnone, hk⟩
  · exact hk

theorem dualdataReopen_has_settled (h : Has (fun t => ∀ m, t m = none) w) :
    (dualdataReopen env).wp
      (fun _ w' => Has (fun t => ∀ m, t m = none) w' ∧ w'.data = migrated w.data ∧
        w'.enabled = w'.data.hasSealed) (fun _ _ => True) w :=
  wp_mono (wp_and (dualdataReopen_has (fun _ h => h) w h) (dualdataReopen_settled h.2))
    (fun _ _ h' => h') fun _ _ _ => trivial

/-- Reopening finds what is put away, in its own directory or in a legacy one. -/
theorem dualdataReopen_finds (h : Has (fun t => ∀ m, t m = none) w)
    (hstored : w.data.stored k ≠ none) :
    (dualdataReopen env).wp (fun _ w' => w'.enabled = true → w'.data.sealed k ≠ none)
      (fun _ _ => True) w := by
  refine wp_mono (dualdataReopen_has_settled h) ?_ fun _ _ _ => trivial
  rintro _ w' ⟨-, hdata', -⟩ -
  rwa [hdata', migrated_sealed]

/-- After dual data has been turned on, a switch to `u` finds the other system
put away, if there was something to be found of it, or nothing of either. -/
theorem enable_finds (h : Has (fun t => ∀ m, t m = none) w) (hdata : w.data = migrated d)
    (hno : ¬ (d.storedOrOff u.other = none ∧ d.storedOrOff u ≠ none)) :
    (dualdataEnable env (some u) >>= fun _ => dualdataReopen env).wp
      (fun _ w' => w'.enabled = true → w'.data.sealed u.other ≠ none) (fun _ _ => True) w := by
  rw [dualdataEnable, wp_bind, wp_bind, wp_forM_all, wp_opData, wp_opData]
  refine ⟨trivial, trivial, ?_⟩
  have h₁ : Has (fun t => ∀ m, t m = none)
      ((w.updateData (enableSealed .one)).updateData (enableSealed .two)) := by
    simp only [Has, World.HasVersion, World.updateData_data, enableSealed_active, enableSealed_tmp]
    exact h
  rw [wp_bind]
  refine wp_mono (dualdataReopen_has_settled h₁) ?_ fun _ _ _ => trivial
  rintro _ w₂ ⟨h₂, hdata₂, hen₂⟩
  have hsealed : ∀ k, w₂.data.sealed k = d.storedOrOff k := by
    intro k
    rw [hdata₂, migrated_sealed, World.updateData_data, World.updateData_data, hdata,
      enableAll_stored]
  have hempty : ∀ k, w₂.data.sealed k ≠ some ∅ := by
    intro k
    rw [hdata₂, migrated_sealed]
    exact stored_ne_empty _ k
  refine wp_branch (fun hon => ?_) fun hoff => ?_
  · refine dualdataReopen_finds h₂ ?_
    have hother : w₂.data.sealed u.other ≠ none :=
      there_of_hasSealed hsealed hno (hen₂.symm.trans hon)
    rw [stored_of_none (by rw [hdata₂]; exact legacyDir_migrated _ _), if_neg (hempty _)]
    exact hother
  · have hnone : ∀ k, w₂.data.sealed k = none := by
      intro k
      by_contra hk
      rw [hen₂, hasSealed_iff.mpr ⟨k, hk⟩] at hoff
      cases hoff
    have hcurrent : currentSysId env (some u) w₂.data = u := by
      rw [currentSysId, hnone, hnone]
      rfl
    rw [wp_bind, wp_get, hcurrent, wp_bind, wp_opData]
    have h₃ : Has (fun t => ∀ m, t m = none) (w₂.updateData (mkdirSealed u.other)) := h₂
    have hmade : (w₂.updateData (mkdirSealed u.other)).data.sealed u.other = some ∅ := by
      refine (Function.update_self ..).trans ?_
      rw [hnone]
      rfl
    refine ⟨trivial, wp_mono (wp_and (createLayoutVersion_has _ _ h₃) (createSealed_spec hmade)) ?_
      fun _ _ _ => trivial⟩
    rintro _ w₄ ⟨h₄, s, hs, hmem⟩
    refine dualdataReopen_finds h₄ ?_
    rw [stored_of_mem hs hmem]
    exact Option.some_ne_none s

/-- What a command does between opening /data and its switch keeps that. -/
theorem Command.middle_finds {c : Command} {misc : Nat → UInt8}
    (h : Has (fun t => ∀ m, t m = none) w) (hdata : w.data = migrated d)
    (hen : w.enabled = w.data.hasSealed)
    (hno : ∀ u, c.goal misc = some u → ¬ (c.finds d u.other = none ∧ c.finds d u ≠ none)) :
    (c.middle env (c.goal misc)).wp
      (fun _ w' => ∀ u, c.goal misc = some u → w'.enabled = true →
        w'.data.sealed u.other ≠ none) (fun _ _ => True) w := by
  have hstored : c.finds d = d.stored → ∀ u, c.goal misc = some u → w.enabled = true →
      w.data.sealed u.other ≠ none := by
    intro hfinds u hu hon
    have hnot := hno u hu
    rw [hfinds] at hnot
    exact there_of_hasSealed (fun k => by rw [hdata, migrated_sealed]) hnot (hen.symm.trans hon)
  have hnowhere : ∀ {m : Script World Unit}, c.goal misc = none → m.wp
      (fun _ w' => ∀ u, c.goal misc = some u → w'.enabled = true →
        w'.data.sealed u.other ≠ none) (fun _ _ => True) w := by
    intro m hgoal
    refine wp_mono (wp_true _ _) ?_ fun _ _ h' => h'
    rintro _ _ - u hu
    rw [hgoal] at hu
    cases hu
  cases c with
  | set | save | load | get => exact hstored rfl
  | disabledualdata => exact hnowhere rfl
  | enabledualdata which =>
      cases which with
      | none => exact hnowhere rfl
      | some u =>
          refine wp_mono (enable_finds h hdata (hno u rfl)) ?_ fun _ _ h' => h'
          rintro _ _ hfound _ ⟨⟩
          exact hfound

/-- A switch that finds the other system put away packs nothing. -/
theorem switchtodata_hasVersion {which : Option SysId} (h : w.HasVersion)
    (hthere : ∀ u, which = some u → w.enabled = true → w.data.sealed u.other ≠ none) :
    (dualdataSwitchtodata which).wp (fun _ => World.HasVersion) (fun _ => World.HasVersion) w := by
  refine wp_when (fun hon => ?_) fun _ => h
  cases which with
  | none => exact h
  | some u =>
      have hskip : (pack u.other).wp (fun _ w' => w' = w) (fun _ => World.HasVersion) w := by
        refine wp_when (fun hnone => ?_) fun _ => rfl
        exact absurd (Option.isNone_iff_eq_none.mp hnone) (hthere u rfl hon)
      rw [wp_bind]
      refine wp_mono hskip ?_ fun _ _ h' => h'
      rintro _ _ rfl
      rw [wp_bind]
      exact wp_mono (unpack_hasVersion u _ h) (fun _ w' h' => create_hasVersion w' h')
        fun _ _ h' => h'

/-- A command that finds no move under way and packs nothing leaves the file
where it is. -/
theorem Command.quiet_hasVersion {c : Command} (h : w.HasVersion) (hsettled : w.data.Settled)
    (hpacks : ¬ c.Packs w) :
    (c.script env).wp (fun _ => World.HasVersion) (fun _ => World.HasVersion) w := by
  have hall := wp_and (@Command.head_has env (fun t => ∀ m, t m = none) c w ⟨h, hsettled⟩)
    (@Command.head_spec env w c)
  rw [c.script_eq, wp_bind]
  refine wp_mono hall ?_ fun _ _ h' => h'.1.1
  rintro which w₁ ⟨h₁, rfl, hdata₁⟩
  rw [wp_bind]
  refine wp_mono (wp_and (dualdataOpen_has (fun _ h => h) w₁ h₁) (dualdataOpen_settled h₁.2)) ?_
    fun _ _ h' => h'.1.1
  rintro _ w₂ ⟨h₂, hdata₂, -, -, -, hen₂⟩
  rw [hdata₁] at hdata₂
  have hmiddle := @Command.middle_finds env w₂ w.data c w.misc h₂ hdata₂ hen₂
    fun u hu hfinds => hpacks ⟨u, hu, hfinds⟩
  rw [wp_bind]
  refine wp_mono (wp_and (c.middle_has (fun _ h => h) _ w₂ h₂) hmiddle) ?_ fun _ _ h' => h'.1.1
  rintro _ w₃ ⟨h₃, hthere⟩
  unfold Command.last
  split
  · rw [wp_bind]
    exact wp_mono (switchtodata_hasVersion h₃.1 hthere) (fun _ _ h' => ⟨h', h'⟩) fun _ _ h' => h'
  · exact ⟨h₃.1, h₃.1⟩

/-! ## Every command -/

/-- A command that does not get as far as the moves, since /data cannot be
opened. -/
def Command.Unopened (env : Env) : Command → Prop
  | .set _ | .save _ | .load => False
  | .get => env.mounted = false ∨ env.fails (.bind 0) = true
  | .enabledualdata _ | .disabledualdata =>
      env.fails .mountData = true ∨ env.fails (.bind 0) = true

theorem Command.unopened_hasVersion {c : Command} (h : w.HasVersion) (hc : c.Unopened env) :
    (c.script env).wp (fun _ => World.HasVersion) (fun _ => World.HasVersion) (w.start env) := by
  have hopen : ∀ {w' : World} {g : Unit → Script World Unit}, w'.HasVersion → w'.binds = 0 →
      (w'.mounted = false ∨ env.fails (.bind 0) = true) →
      (dualdataOpen env >>= g).wp (fun _ => World.HasVersion) (fun _ => World.HasVersion) w' := by
    intro w' g h' hbinds hblocked
    rw [← hbinds] at hblocked
    rw [dualdataOpen, bind_assoc, wp_bind]
    refine wp_mono bindData_spec (fun _ _ hno => absurd hblocked hno.2.2) ?_
    rintro _ w'' ⟨hsame, -⟩
    rw [World.HasVersion, hsame.data]
    exact h'
  have hmount : ∀ {which : Option SysId} {g : Option SysId → Script World Unit},
      (env.fails .mountData = true ∨ env.fails (.bind 0) = true) →
      (mountData env >>= fun _ => (pure which : Script World (Option SysId)) >>= fun which =>
        dualdataOpen env >>= fun _ => g which).wp (fun _ => World.HasVersion)
        (fun _ => World.HasVersion) (w.start env) := by
    intro which g hc
    rw [mountData, bind_assoc, wp_bind]
    refine wp_require (fun hok => ⟨h, hopen h rfl (.inr (hc.resolve_left ?_))⟩) fun _ => h
    rw [Bool.not_eq_true'] at hok
    rw [hok]
    exact Bool.false_ne_true
  rw [c.script_eq]
  cases c with
  | set | save | load => exact hc.elim
  | get => exact hopen h rfl hc
  | enabledualdata which =>
      rw [head, bind_assoc]
      exact hmount hc
  | disabledualdata =>
      rw [head, bind_assoc]
      exact hmount hc

/-- A command, and where it is killed, after which /data still has its
.layout_version. -/
inductive Spares (w : World) (c : Call) : Prop where
  /-- It takes nothing away: no move is to be finished, and it packs nothing. -/
  | quiet (hsettled : w.data.Settled) (hpacks : ¬ c.cmd.Packs w)
  /-- It is killed before it takes .layout_version. -/
  | early (b : Nat) (hb : c.budget = some b)
      (h : b ≤ (c.cmd.untilTaken c.env).ops (w.start c.env))
  /-- It is one that brings one back, and is not killed before that. -/
  | late (hback : c.cmd.Returns c.env)
      (h : ∀ b, c.budget = some b → (c.cmd.untilBack c.env).ops (w.start c.env) ≤ b)
  | unopened (h : c.cmd.Unopened c.env)

theorem Spares.hasVersion {c : Call} (hc : Spares w c) (h : w.HasVersion) :
    (exec c.env c.budget c.cmd w).state.HasVersion := by
  have hstart : (w.start c.env).HasVersion := h
  cases hc with
  | quiet hsettled hpacks =>
      have hquiet : (c.cmd.script c.env).wp (fun _ => World.HasVersion) (fun _ => World.HasVersion)
          (w.start c.env) := c.cmd.quiet_hasVersion hstart hsettled hpacks
      exact run_state hquiet c.budget
  | early b hb hle =>
      have hopens := @Command.untilTaken_opens c.env (fun _ => True) (fun _ => trivial) c.cmd
      rw [exec, hb]
      exact hopens.early (c.cmd.untilTaken_hasVersion _ hstart) hle
  | late hback hge =>
      exact c.cmd.untilBack_opens.late (Command.untilBack_back hstart hback) hge
  | unopened hun => exact run_state (Command.unopened_hasVersion h hun) c.budget

/-- After any commands that spare it, /data has its .layout_version. -/
theorem hasVersion_reachable {w₀ : World} {calls : List Call} (h₀ : w₀.HasVersion)
    (hrun : Run step Spares w₀ calls w) : w.HasVersion := by
  refine hrun.invariant (I := World.HasVersion) h₀ ?_
  intro w₁ c _ h hc hstep
  cases hstep
  exact hc.hasVersion h

end Pisces.Dualboot
