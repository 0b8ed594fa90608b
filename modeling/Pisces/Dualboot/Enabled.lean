import Pisces.Dualboot.Legacy

/-!
# A switch that runs to its end

With dual data on and no move under way there is exactly one sealed directory.
Opening then changes nothing. A switch to the system that is active changes
nothing either, but for a .layout_version that was missing; a switch to the
other one seals the active entries as they are and makes the sealed ones active.
-/

namespace Pisces.Dualboot

open Pisces.Lib Pisces.Lib.Script

/-- Dual data is on: system-q holds `s`, and there is no other directory the
script would do something with. -/
structure Enabled (q : SysId) (s : Entries) (d : Data) : Prop where
  sealed : d.sealed q = some s
  nonempty : s ≠ ∅
  other : d.sealed q.other = none
  settled : d.Settled

/-- The active entries after `dualdata_create_layout_version_`. -/
def versioned (a : Entries) : Entries :=
  if layoutVersion ∈ a then a else a.insert layoutVersion (.file "")

variable {q : SysId} {s : Entries} {d : Data} {env : Env} {w : World}

theorem Enabled.stored_eq (h : Enabled q s d) : d.stored q = some s := by
  rw [Data.stored, if_neg, h.sealed]
  rw [h.sealed]
  rintro (hnone | hempty)
  · cases hnone
  · exact h.nonempty (Option.some.inj hempty)

/-- With nothing to migrate, opening changes nothing. -/
theorem Enabled.migrated_eq (h : Enabled q s d) (hlegacy : ∀ k, d.legacyDir k = none) :
    migrated d = d := by
  have hsealed : ∀ k, rmdirSealed k d = d := by
    intro k
    rw [rmdirSealed, if_neg]
    intro hempty
    rcases SysId.eq_or_other q k with rfl | rfl
    · rw [h.sealed, Option.some.injEq] at hempty
      exact h.nonempty hempty
    · rw [h.other] at hempty
      cases hempty
  rw [migrated, prepared, cleaned, hsealed, hsealed, rmdirLegacy_skip (hlegacy .one),
    rmdirLegacy_skip (hlegacy .two), migrate_eq_self (hlegacy .one), migrate_eq_self (hlegacy .two)]

/-- With dual data on, every `dualdata_open` sees it, legacy directories or
not. -/
theorem dualdataOpen_sees (h : Enabled q s w.data) :
    (dualdataOpen env).wp
      (fun _ w' => w'.data = migrated w.data ∧ w'.misc = w.misc ∧ w'.clashes = w.clashes ∧
        w'.whose = w.whose ∧ w'.enabled = true)
      (fun why _ => why = .exit → Blocked env w) w := by
  refine wp_mono (dualdataOpen_settled h.settled) ?_ fun _ _ hexit => hexit
  rintro _ w' ⟨hdata, hmisc, hclashes, hwhose, hen⟩
  refine ⟨hdata, hmisc, hclashes, hwhose, hen.trans (hasSealed_iff.mpr ⟨q, ?_⟩)⟩
  rw [hdata, migrated_sealed, h.stored_eq]
  exact Option.some_ne_none s

theorem dualdataOpen_enabled (h : Enabled q s w.data) (hlegacy : ∀ k, w.data.legacyDir k = none) :
    (dualdataOpen env).wp (fun _ w' => SameDisk w w' ∧ w'.enabled = true)
      (fun why _ => why = .exit → Blocked env w) w := by
  refine wp_mono (dualdataOpen_sees h) ?_ fun _ _ hexit => hexit
  rintro _ w' ⟨hdata, hmisc, hclashes, hwhose, hen⟩
  exact ⟨⟨hdata.trans (h.migrated_eq hlegacy), hmisc, hclashes, hwhose⟩, hen⟩

/-- What a completed switch leaves when it was to the system that is active
already. -/
structure Stayed (w w' : World) : Prop where
  active : w'.data.active = versioned w.data.active
  sealed : w'.data.sealed = w.data.sealed
  settled : w'.data.Settled
  misc : w'.misc = w.misc

/-- What it leaves when it was to system `q`, which had `s` sealed. -/
structure Swapped (q : SysId) (s : Entries) (w w' : World) : Prop where
  active : w'.data.active = versioned s
  sealed : w'.data.sealed q.other = some w.data.active
  other : w'.data.sealed q = none
  settled : w'.data.Settled
  misc : w'.misc = w.misc

theorem createLayoutVersion_active :
    (dualdataCreateLayoutVersion .active).wp
      (fun _ w' => w' = w.updateData fun d => { d with active := versioned d.active })
      (fun why _ => why = .killed) w := by
  refine wp_mono createLayoutVersion_spec ?_ fun _ _ h => h.1
  rintro _ _ (⟨hthere, rfl⟩ | ⟨hnew, rfl⟩)
  · rw [World.updateData, versioned, if_pos hthere]
  · rw [World.updateData, World.updateData, versioned, if_neg hnew, Data.insertAt]

theorem switch_stay (h : Enabled q s w.data) (hen : w.enabled = true) :
    (dualdataSwitchtodata (some q.other)).wp (fun _ w' => Stayed w w')
      (fun why _ => why = .killed) w := by
  refine wp_when (fun _ => ?_) fun hoff => by rw [hen] at hoff; cases hoff
  simp only [wp_bind, SysId.other_other]
  -- system-q is there, so nothing is packed, and the other is not, so nothing is unpacked
  refine wp_when (fun hnone => by rw [h.sealed] at hnone; cases hnone) fun _ => ?_
  rw [unpack, wp_bind]
  refine wp_when (fun hsome => by rw [h.other] at hsome; cases hsome) fun _ => ?_
  refine wp_when (fun hsome => by rw [h.settled] at hsome; cases hsome) fun _ => ?_
  refine wp_mono createLayoutVersion_active ?_ fun _ _ h => h
  rintro _ _ rfl
  exact ⟨rfl, rfl, h.settled, rfl⟩

/-- Packing into a directory of its own seals the active entries as they are. -/
theorem pack_fresh {p : SysId} (hsettled : w.data.Settled) (hsealed : w.data.sealed p = none) :
    (pack p).wp
      (fun _ w' => w'.misc = w.misc ∧ w'.data = { w.data with
        active := ∅
        sealed := Function.update w.data.sealed p (some w.data.active) })
      (fun why _ => why = .killed) w := by
  refine wp_when (fun _ => ?_) fun hsome => by rw [hsealed] at hsome; cases hsome
  rw [wp_bind, wp_opData]
  refine ⟨rfl, ?_⟩
  have hmk : w.updateData (mkdirTmp p) = { w with data := w.data.withMove p w.data.active ∅ } := by
    rw [World.updateData, mkdirTmp, hsettled]
    rfl
  rw [hmk]
  refine wp_mono (packSeal_spec (Data.withMove_tmp ..) hsealed) ?_ fun _ _ h => h.1
  rintro _ _ ⟨a', t', cs, hpart, -, rfl⟩
  obtain ⟨ha', ht'⟩ := hpart.done fun _ _ => Finmap.notMem_empty
  subst ha' ht'
  have htmp : Function.update w.data.tmp p none = w.data.tmp := by
    rw [← hsettled p, Function.update_eq_self]
  simp only [Data.withMove, Function.update_idem, Finmap.union_empty, htmp, and_self]

/-- Unpacking from system-u, with no move under way. -/
theorem unpack_partway {u : SysId} (hsettled : w.data.Settled) (hsealed : w.data.sealed u = some s)
    (hmedia : "media" ∉ s) :
    (unpack u).wp
      (fun _ w' => w'.misc = w.misc ∧ ∃ a' t',
        Dir.Partway Node.replaces s w.data.active [] t' a' ∧
        w'.data = rmdirTmp u { w.data with
          active := a'
          sealed := Function.update w.data.sealed u none
          tmp := Function.update w.data.tmp u (some t') })
      (fun why _ => why = .killed) w := by
  rw [unpack, wp_bind]
  refine wp_when (fun _ => wp_opData.mpr ⟨rfl, ?_⟩)
    fun hno => by rw [hsealed, hsettled] at hno; cases hno
  rw [mvSealedTmp_eq hsealed]
  have htmp : Function.update w.data.tmp u (some s) u = some s := Function.update_self ..
  refine wp_when (fun _ => ?_) fun hno => by simp only [Function.update_self] at hno; cases hno
  refine wp_mono (unpackRemove_spec htmp hmedia) ?_ fun _ _ h => h.1
  rintro _ _ ⟨a', t', cs, hpart, -, rfl⟩
  refine ⟨rfl, a', t', hpart, ?_⟩
  simp only [Data.withMove, Function.update_idem]

/-- Unpacking into an empty /data makes the sealed entries active as they are. -/
theorem unpack_fresh {u : SysId} (hsettled : w.data.Settled) (hsealed : w.data.sealed u = some s)
    (hactive : w.data.active = ∅) (hmedia : "media" ∉ s) :
    (unpack u).wp
      (fun _ w' => w'.misc = w.misc ∧ w'.data = { w.data with
        active := s
        sealed := Function.update w.data.sealed u none })
      (fun why _ => why = .killed) w := by
  refine wp_mono (unpack_partway hsettled hsealed hmedia) ?_ fun _ _ h => h
  rintro _ w' ⟨hmisc, a', t', hpart, hdata⟩
  obtain ⟨ht', ha'⟩ := hpart.done fun x _ => by rw [hactive]; exact Finmap.notMem_empty
  subst ht' ha'
  have htmp : Function.update w.data.tmp u none = w.data.tmp := by
    rw [← hsettled u, Function.update_eq_self]
  refine ⟨hmisc, hdata.trans ?_⟩
  simp only [rmdirTmp, Function.update_idem, Function.update_self, if_true, hactive,
    Finmap.union_empty, htmp]

theorem switch_swap (h : Enabled q s w.data) (hmedia : "media" ∉ s) (hen : w.enabled = true) :
    (dualdataSwitchtodata (some q)).wp (fun _ w' => Swapped q s w w')
      (fun why _ => why = .killed) w := by
  have hne := SysId.other_ne q
  refine wp_when (fun _ => ?_) fun hoff => by rw [hen] at hoff; cases hoff
  simp only [wp_bind]
  refine wp_mono (pack_fresh h.settled h.other) ?_ fun _ _ h => h
  rintro _ w₁ ⟨hmisc₁, hdata₁⟩
  have hsealed₁ : w₁.data.sealed q = some s := by
    rw [hdata₁]
    exact (Function.update_of_ne hne.symm _ _).trans h.sealed
  have hsettled₁ : w₁.data.Settled := by
    rw [hdata₁]
    exact h.settled
  refine wp_mono (unpack_fresh hsettled₁ hsealed₁ (by rw [hdata₁]) hmedia) ?_ fun _ _ h => h
  rintro _ w₂ ⟨hmisc₂, hdata₂⟩
  refine wp_mono createLayoutVersion_active ?_ fun _ _ h => h
  rintro _ _ rfl
  rw [hdata₁] at hdata₂
  constructor
  · simp only [World.updateData, hdata₂]
  · simp only [World.updateData, hdata₂, Function.update_of_ne hne, Function.update_self]
  · simp only [World.updateData, hdata₂, Function.update_self]
  · rw [World.updateData, hdata₂]
    exact h.settled
  · exact hmisc₂.trans hmisc₁

/-! ## A switch from anywhere -/

theorem switch_noExit (n : SysId) : NoExit (dualdataSwitchtodata (some n)) := by
  have hpack : ∀ m, NoExit (packAll m) := fun m => .bind (.get _) fun _ => .forM fun _ => .op _
  have hunpack : ∀ m, NoExit (unpackAll m) := fun m => .bind (.get _) fun _ => .forM fun _ => .op _
  refine .when (.bind ?_ fun _ => .bind ?_ fun _ => ?_)
  · exact .when (.bind (.op _) fun _ => .bind (hpack _) fun _ => .op _)
  · exact .bind (.when (.op _)) fun _ => .when (.bind (hunpack _) fun _ => .op _)
  · exact .when (.branch (.bind (.get _) fun _ => .bind (.op _) fun _ => .op _) (.op _))

/-- A property of the active entries and of what system `n` has put away is kept
by a switch to `n` if it is kept when an entry comes out, when an entry is
packed, and when a .layout_version is made. -/
theorem switch_keeps {n : SysId} {I : Entries → Option Entries → Option Entries → Prop}
    (hpack : ∀ {a sealed tmp} x t, I a sealed tmp → I (Dir.move Node.replaces x a t).1 sealed tmp)
    (hopen : ∀ {a e}, I a (some e) none → I a none (some e))
    (hout : ∀ {a sealed t} x, x ≠ "media" → I a sealed (some t) →
      I (Dir.move Node.replaces x t a).2 sealed (some (Dir.move Node.replaces x t a).1))
    (hrmdir : ∀ {a sealed}, I a sealed (some ∅) → I a sealed none)
    (hversion : ∀ {a sealed tmp} v, I a sealed tmp → I (a.insert layoutVersion v) sealed tmp) :
    Keeps (fun w => I w.data.active (w.data.sealed n) (w.data.tmp n))
      (dualdataSwitchtodata (some n)) := by
  have hne := SysId.other_ne n
  have hpackAll : Keeps (fun w => I w.data.active (w.data.sealed n) (w.data.tmp n))
      (packAll n.other) := by
    refine .bind (.get _) fun names => .forM fun x _ => .op fun w h => ?_
    rw [packEntry]
    split
    · exact h
    · simp only [Data.withMove, Function.update_of_ne hne.symm]
      exact hpack x _ h
  have hunpackAll : Keeps (fun w => I w.data.active (w.data.sealed n) (w.data.tmp n))
      (unpackAll n) := by
    refine .bind (.get _) fun names => .forM fun x _ => .op fun w h => ?_
    rw [unpackEntry]
    split
    · exact h
    · next t ht =>
        split
        · exact h
        · next hx =>
            rw [ht] at h
            simp only [Data.withMove, Function.update_self]
            exact hout x hx h
  refine .when (.bind ?_ fun _ => .bind ?_ fun _ => ?_)
  · refine .when (.bind (.op fun w h => ?_) fun _ => .bind hpackAll fun _ => .op fun w h => ?_)
    · simp only [World.updateData, mkdirTmp, Function.update_of_ne hne.symm]
      exact h
    · obtain ⟨-, hactive, hrest⟩ := mvTmpSealed_frame n.other w
      rw [hactive, (hrest n hne.symm).1, (hrest n hne.symm).2]
      exact h
  · refine .bind (fun w h => wp_when (fun hsome => wp_opData.mpr ⟨h, ?_⟩) fun _ => h) fun _ =>
      .when (.bind hunpackAll fun _ => .op fun w h => ?_)
    · rw [Bool.and_eq_true] at hsome
      obtain ⟨e, he⟩ := Option.isSome_iff_exists.mp hsome.1
      rw [he, Option.isNone_iff_eq_none.mp hsome.2] at h
      simp only [World.updateData, mvSealedTmp, he, Function.update_self]
      exact hopen h
    · rw [World.updateData, rmdirTmp]
      split
      · next hempty =>
          rw [hempty] at h
          simp only [Function.update_self]
          exact hrmdir h
      · exact h
  · intro w h
    refine wp_mono createLayoutVersion_spec ?_ ?_
    · rintro _ _ (⟨-, rfl⟩ | ⟨-, rfl⟩)
      · exact h
      · exact hversion _ h
    · rintro _ _ ⟨-, rfl⟩
      exact h

theorem switch_noMedia (n : SysId) :
    Keeps (fun w => "media" ∉ w.data.active) (dualdataSwitchtodata (some n)) := by
  refine @switch_keeps n (fun a _ _ => "media" ∉ a) ?_ (fun h => h) ?_ (fun h => h) ?_
  · exact fun x t h hn => h (Dir.mem_move_src hn).1
  · intro a sealed t x hx h hn
    rcases Dir.move_cases Node.replaces x t a with ⟨v, -, -, hmove⟩ | ⟨-, hmove⟩ <;>
      rw [hmove] at hn
    · rcases Finmap.mem_insert.mp hn with rfl | hn
      · exact hx rfl
      · exact h hn
    · exact h hn
  · intro a sealed tmp v h hn
    rcases Finmap.mem_insert.mp hn with hlv | hn
    · exact absurd hlv (by decide)
    · exact h hn

/-- An entry that is not active and not put away for system `n` does not become
active. -/
theorem switch_lacks {n : SysId} {x : Name} {v : Node} (hx : x ≠ layoutVersion) :
    Keeps (fun w => w.data.active.lookup x ≠ some v ∧
        (∀ e, w.data.sealed n = some e → e.lookup x ≠ some v) ∧
        ∀ e, w.data.tmp n = some e → e.lookup x ≠ some v)
      (dualdataSwitchtodata (some n)) := by
  refine @switch_keeps n (fun a sealed tmp => a.lookup x ≠ some v ∧
    (∀ e, sealed = some e → e.lookup x ≠ some v) ∧ ∀ e, tmp = some e → e.lookup x ≠ some v)
    ?_ ?_ ?_ ?_ ?_
  · rintro a sealed tmp y t ⟨ha, hrest⟩
    exact ⟨fun h => ha (Dir.lookup_move_src h), hrest⟩
  · rintro a e ⟨ha, he, -⟩
    exact ⟨ha, fun _ h => absurd h (Option.some_ne_none _).symm, he⟩
  · rintro a sealed t y - ⟨ha, hs, ht⟩
    refine ⟨fun h => ?_, hs, ?_⟩
    · rcases Dir.lookup_move_dst h with h | h
      · exact ht t rfl h
      · exact ha h
    · rintro _ ⟨⟩ h
      exact ht t rfl (Dir.lookup_move_src h)
  · rintro a sealed ⟨ha, hs, -⟩
    exact ⟨ha, hs, fun _ h => absurd h (Option.some_ne_none _).symm⟩
  · rintro a sealed tmp y ⟨ha, hrest⟩
    refine ⟨?_, hrest⟩
    rwa [Finmap.lookup_insert_of_ne _ hx]

/-- With both systems sealed, nothing is packed, and what system `n` has sealed
comes out beside the active entries. -/
theorem switch_beside {n : SysId} {e : Entries} (hen : w.enabled = true)
    (hsettled : w.data.Settled) (hother : w.data.sealed n.other ≠ none)
    (hsealed : w.data.sealed n = some e) (hmedia : "media" ∉ e) :
    (dualdataSwitchtodata (some n)).wp
      (fun _ w' => w'.misc = w.misc ∧ ∃ a' t',
        Dir.Partway Node.replaces e w.data.active [] t' a' ∧ w'.data.active = versioned a')
      (fun why _ => why = .killed) w := by
  refine wp_when (fun _ => ?_) fun hoff => by rw [hen] at hoff; cases hoff
  simp only [wp_bind]
  refine wp_when (fun hnone => absurd (Option.isNone_iff_eq_none.mp hnone) hother) fun _ => ?_
  refine wp_mono (unpack_partway hsettled hsealed hmedia) ?_ fun _ _ h => h
  rintro _ w₁ ⟨hmisc, a', t', hpart, hdata⟩
  refine wp_mono createLayoutVersion_active ?_ fun _ _ h => h
  rintro _ _ rfl
  refine ⟨hmisc, a', t', hpart, ?_⟩
  rw [World.updateData, hdata, rmdirTmp]
  split <;> rfl

/-- What opening and a switch to system `n` leave. -/
def Switched (q : SysId) (s : Entries) (n : SysId) (w w' : World) : Prop :=
  n = q ∧ Swapped q s w w' ∨ n = q.other ∧ Stayed w w'

theorem openSwitch_enabled {n : SysId} (h : Enabled q s w.data)
    (hlegacy : ∀ k, w.data.legacyDir k = none) (hmedia : "media" ∉ s) :
    (dualdataOpen env >>= fun _ => dualdataSwitchtodata (some n) >>= fun _ => dualdataClose).wp
      (fun _ w' => Switched q s n w w') (fun why _ => why = .exit → Blocked env w) w := by
  have hkilled : ∀ why (w' : World), why = Stop.killed → why = .exit → Blocked env w := by
    rintro _ - rfl hexit
    cases hexit
  rw [wp_bind]
  refine wp_mono (dualdataOpen_enabled h hlegacy) ?_ fun _ _ hexit => hexit
  rintro _ w₁ ⟨hw₁, hen⟩
  have h₁ : Enabled q s w₁.data := by rwa [hw₁.data]
  rw [wp_bind]
  rcases SysId.eq_or_other q n with rfl | rfl
  · refine wp_mono (switch_swap h₁ hmedia hen) ?_ hkilled
    intro _ w₂ hw₂
    refine ⟨Stop.of_killed_eq_exit, .inl ⟨rfl, hw₂.active, ?_, hw₂.other, hw₂.settled, ?_⟩⟩
    · exact hw₂.sealed.trans (by rw [hw₁.data])
    · exact hw₂.misc.trans hw₁.misc
  · refine wp_mono (switch_stay h₁ hen) ?_ hkilled
    intro _ w₂ hw₂
    refine ⟨Stop.of_killed_eq_exit, .inr ⟨rfl, ?_, ?_, hw₂.settled, ?_⟩⟩
    · exact hw₂.active.trans (by rw [hw₁.data])
    · exact hw₂.sealed.trans (by rw [hw₁.data])
    · exact hw₂.misc.trans hw₁.misc

/-! ## The way to /data -/

/-- None of the external commands after the bootmark fails. -/
structure Works (env : Env) : Prop where
  mknod : ∀ part ∈ [partnumBoot, partnumBoot1, partnumSystem, partnumSystem1],
    env.fails (.mknod part) = false
  mountData : env.fails .mountData = false
  bind : env.fails (.bind 0) = false

/-- The disks are as before, and so is the count of bind mounts. -/
structure Untouched (w w' : World) : Prop extends SameDisk w w' where
  binds : w'.binds = w.binds

theorem mknod_spec {w' : World} (part minor : Nat) (hw' : Untouched w w') :
    (mknod env part minor).wp (fun _ w'' => env.fails (.mknod part) = false ∧ Untouched w w'')
      (fun why w'' => SameDisk w w'' ∧ (why = .exit → env.fails (.mknod part) = true)) w' := by
  rw [mknod, wp_bind]
  refine wp_require ?_ ?_
  · intro hok
    rw [Bool.not_eq_true'] at hok
    refine ⟨⟨hw'.toSameDisk, Stop.of_killed_eq_exit⟩, hok, ?_⟩
    exact ⟨⟨hw'.data, hw'.misc, hw'.clashes, hw'.whose⟩, hw'.binds⟩
  · intro hfails
    rw [Bool.not_eq_false'] at hfails
    exact ⟨hw'.toSameDisk, fun _ => hfails⟩

theorem dualbootHacknodes_spec (u : SysId) :
    (dualbootHacknodes env (some u)).wp
      (fun _ w' => (∀ part ∈ [partnumBoot, partnumBoot1, partnumSystem, partnumSystem1],
        env.fails (.mknod part) = false) ∧ Untouched w w')
      (fun why w' => SameDisk w w' ∧ (why = .exit → ¬ Works env)) w := by
  have hstop : ∀ part ∈ [partnumBoot, partnumBoot1, partnumSystem, partnumSystem1],
      ∀ why w', (SameDisk w w' ∧ (why = Stop.exit → env.fails (.mknod part) = true)) →
        SameDisk w w' ∧ (why = .exit → ¬ Works env) := by
    rintro part hpart why w' ⟨hsame, hfails⟩
    refine ⟨hsame, fun hexit hworks => ?_⟩
    have hno := hworks.mknod part hpart
    rw [hfails hexit] at hno
    cases hno
  have hhack : ∀ minorBoot minorSystem : Nat,
      (op (fun w : World => { w with nodes := removeNodes w.nodes }) >>= fun _ =>
        mknod env partnumBoot minorBoot >>= fun _ => mknod env partnumBoot1 minorBoot >>= fun _ =>
        mknod env partnumSystem minorSystem >>= fun _ => mknod env partnumSystem1 minorSystem).wp
      (fun _ w' => (∀ part ∈ [partnumBoot, partnumBoot1, partnumSystem, partnumSystem1],
        env.fails (.mknod part) = false) ∧ Untouched w w')
      (fun why w' => SameDisk w w' ∧ (why = .exit → ¬ Works env)) w := by
    intro minorBoot minorSystem
    simp only [wp_bind, wp_op]
    refine ⟨⟨⟨rfl, rfl, rfl, rfl⟩, Stop.of_killed_eq_exit⟩, ?_⟩
    have hw₀ : Untouched w { w with nodes := removeNodes w.nodes } := ⟨⟨rfl, rfl, rfl, rfl⟩, rfl⟩
    refine wp_mono (mknod_spec _ _ hw₀) ?_ (hstop partnumBoot (by decide))
    rintro _ w₁ ⟨h₁, hw₁⟩
    refine wp_mono (mknod_spec _ _ hw₁) ?_ (hstop partnumBoot1 (by decide))
    rintro _ w₂ ⟨h₂, hw₂⟩
    refine wp_mono (mknod_spec _ _ hw₂) ?_ (hstop partnumSystem (by decide))
    rintro _ w₃ ⟨h₃, hw₃⟩
    refine wp_mono (mknod_spec _ _ hw₃) ?_ (hstop partnumSystem1 (by decide))
    rintro _ w₄ ⟨h₄, hw₄⟩
    refine ⟨?_, hw₄⟩
    simp only [List.forall_mem_cons]
    exact ⟨h₁, h₂, h₃, h₄, fun _ hnil => absurd hnil List.not_mem_nil⟩
  cases u with
  | one => exact hhack _ _
  | two => exact hhack _ _

/-- If a command fails on the way to /data, the script exits there; else /data
is opened, as it was found. -/
theorem bootInto_reaches {u : SysId} {Q : Unit → World → Prop} {C : Stop → World → Prop}
    (hbinds : w.binds = 0)
    (hstop : ∀ why w', SameDisk w w' → (why = .exit → ¬ Works env) → C why w')
    (hrest : Works env → ∀ w', SameDisk w w' → w'.mounted = true → w'.binds = 0 →
      (dualdataOpen env >>= fun _ => dualdataSwitchtodata (some u) >>= fun _ =>
        dualdataClose).wp Q C w') :
    (bootInto env (some u)).wp Q C w := by
  rw [bootInto, wp_bind]
  refine wp_mono (dualbootHacknodes_spec u) ?_ fun why w' h => hstop why w' h.1 h.2
  rintro _ w₁ ⟨hmknod, hw₁⟩
  rw [wp_bind, mountData, wp_bind]
  refine wp_require ?_ ?_
  · intro hmount
    rw [Bool.not_eq_true'] at hmount
    rw [wp_op]
    refine ⟨hstop _ _ hw₁.toSameDisk Stop.of_killed_eq_exit, ?_⟩
    have hsame : SameDisk w { w₁ with mounted := true } :=
      ⟨hw₁.data, hw₁.misc, hw₁.clashes, hw₁.whose⟩
    have hbinds₁ : w₁.binds = 0 := hw₁.binds.trans hbinds
    by_cases hbind : env.fails (.bind 0) = true
    · rw [wp_bind, dualdataOpen, wp_bind]
      refine wp_mono bindData_spec ?_ fun why w' hw' => hstop why w' ?_ ?_
      · rintro _ w' ⟨-, -, hfree⟩
        exact absurd (.inr (by rw [hbinds₁, hbind])) hfree
      · exact ⟨hw'.1.data.trans hsame.data, hw'.1.misc.trans hsame.misc,
          hw'.1.clashes.trans hsame.clashes, hw'.1.whose.trans hsame.whose⟩
      · intro _ hworks
        rw [hworks.bind] at hbind
        cases hbind
    · exact hrest ⟨hmknod, hmount, Bool.eq_false_iff.mpr hbind⟩ _ hsame rfl hbinds₁
  · intro hmount
    rw [Bool.not_eq_false'] at hmount
    refine hstop _ _ hw₁.toSameDisk fun _ hworks => ?_
    rw [hworks.mountData] at hmount
    cases hmount

end Pisces.Dualboot
