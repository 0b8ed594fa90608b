import Pisces.Dualboot.Bootmark
import Pisces.Dualboot.Isolation

/-!
# Switching as a machine with three states

As long as dual data stays on, /data is in one of three states, at every moment
of every command: a system's entries are active and the other's are sealed; a
system's entries are on their way, in part active and in part in its .tmp
directory; or both are sealed and nothing is active. A switch goes through them
in a fixed order, a kill leaves it in one of them, and the next command that
opens /data goes on from there. So a killed or failed switch is repaired by the
next one that completes, whichever system that is for.
-/

namespace Pisces.Dualboot

open Pisces.Lib Pisces.Lib.Script

inductive Mode where
  | running (k : SysId)
  | moving (k : SysId)
  | away
  deriving DecidableEq

/-- The entries of system `k` are in system-k. -/
def SealedAt (o : SysId → Entries) (k : SysId) (d : Data) : Prop :=
  ∃ c, d.sealed k = some c ∧ Holds c (o k)

/-- System `k`'s entries are the active ones. -/
structure Running (o : SysId → Entries) (k : SysId) (d : Data) : Prop where
  active : Holds d.active (o k)
  unsealed : d.sealed k = none
  other : SealedAt o k.other d
  settled : d.Settled

/-- System `k`'s entries are the active ones and those of system-k.tmp. -/
structure Moving (o : SysId → Entries) (k : SysId) (t : Entries) (d : Data) : Prop where
  tmp : d.tmp k = some t
  noOther : d.tmp k.other = none
  holds : Holds (t ∪ d.active) (o k)
  split : ∀ n ∈ d.active, n ∉ t
  unsealed : d.sealed k = none
  other : SealedAt o k.other d

structure Away (o : SysId → Entries) (d : Data) : Prop where
  active : d.active = ∅
  sealed : ∀ k, SealedAt o k d
  settled : d.Settled

/-- /data is in the state `mode`. -/
def Stands (o : SysId → Entries) (d : Data) : Mode → Prop
  | .running k => Running o k d
  | .moving k => ∃ t, Moving o k t d
  | .away => Away o d

/-- It is in one of the three. -/
def Upright (o : SysId → Entries) (d : Data) : Prop := ∃ mode, Stands o d mode

variable {o : SysId → Entries} {env : Env} {w : World} {k u : SysId} {t : Entries} {d : Data}
  {mode : Mode}

theorem Running.upright (h : Running o k d) : Upright o d := ⟨.running k, h⟩

theorem Moving.upright (h : Moving o k t d) : Upright o d := ⟨.moving k, t, h⟩

theorem Away.upright (h : Away o d) : Upright o d := ⟨.away, h⟩

/-! ## What is where -/

theorem SealedAt.ne_none (h : SealedAt o k d) : d.sealed k ≠ none := by
  obtain ⟨c, hc, -⟩ := h
  rw [hc]
  exact Option.some_ne_none c

theorem SealedAt.ne_empty (hplain : Plain o) (h : SealedAt o k d) : d.sealed k ≠ some ∅ := by
  obtain ⟨c, hc, hholds⟩ := h
  rw [hc, Ne, Option.some.injEq]
  exact hholds.ne_empty (hplain.nonempty k)

/-- In each state one system at least is sealed. -/
theorem Upright.hasSealed (h : Upright o d) : d.hasSealed = true := by
  rw [hasSealed_iff]
  obtain ⟨mode, h⟩ := h
  cases mode with
  | running k => exact ⟨k.other, h.other.ne_none⟩
  | moving k =>
      obtain ⟨t, h⟩ := h
      exact ⟨k.other, h.other.ne_none⟩
  | away => exact ⟨.one, (h.sealed .one).ne_none⟩

/-- An active entry is one of a system, or a .layout_version. -/
theorem Upright.mem_active (h : Upright o d) {n : Name} (hn : n ∈ d.active) :
    (∃ k, n ∈ o k) ∨ n = layoutVersion := by
  obtain ⟨mode, h⟩ := h
  cases mode with
  | running k => exact (h.active.only n hn).imp_left fun hk => ⟨k, hk⟩
  | moving k =>
      obtain ⟨t, h⟩ := h
      exact (h.holds.only n (Finmap.mem_union.mpr (.inr hn))).imp_left fun hk => ⟨k, hk⟩
  | away =>
      rw [h.active] at hn
      exact absurd hn Finmap.notMem_empty

theorem Upright.legacyDir_eq_none (hplain : Plain o) (h : Upright o d) (k : SysId) :
    d.legacyDir k = none := by
  have hn : legacyName k ∉ d.active := by
    intro hn
    rcases h.mem_active hn with ⟨j, hj⟩ | hlv
    · exact hplain.noLegacy j k hj
    · cases k <;> exact absurd hlv (by decide)
  rw [Data.legacyDir, Finmap.lookup_eq_none.mpr hn]

theorem Moving.noMedia (hplain : Plain o) (h : Moving o k t d) : "media" ∉ t := by
  intro hn
  rcases h.holds.only _ (Finmap.mem_union.mpr (.inl hn)) with hk | hlv
  · exact hplain.noMedia k hk
  · exact absurd hlv (by decide)

/-- No system-k is empty, and so opening /data removes none. -/
theorem Upright.rmdirSealed_eq (hplain : Plain o) (h : Upright o d) :
    ∀ k, rmdirSealed k d = d := by
  have hne : ∀ k, d.sealed k ≠ some ∅ := by
    obtain ⟨mode, h⟩ := h
    have hpair : ∀ k, d.sealed k = none → SealedAt o k.other d → ∀ j, d.sealed j ≠ some ∅ := by
      intro k hnone hother
      rw [SysId.forall_iff k, hnone]
      exact ⟨nofun, hother.ne_empty hplain⟩
    cases mode with
    | running k => exact hpair k h.unsealed h.other
    | moving k =>
        obtain ⟨t, h⟩ := h
        exact hpair k h.unsealed h.other
    | away => exact fun k => (h.sealed k).ne_empty hplain
  intro k
  rw [rmdirSealed, if_neg (hne k)]

/-! ## The moves -/

/-- Names that the two directories do not share are never refused. -/
theorem Partway.eq_empty {src dst src' dst' : Entries} (hsplit : ∀ n ∈ src, n ∉ dst)
    (h : Dir.Partway Node.replaces src dst [] src' dst') : src' = ∅ := by
  refine Dir.eq_empty_iff.mpr fun n hn => ?_
  rcases h.left n hn with hnil | ⟨v, old, hv, hold, -⟩
  · exact absurd hnil List.not_mem_nil
  · exact hsplit n (Finmap.mem_of_lookup_eq_some hv) (Finmap.mem_of_lookup_eq_some hold)

/-- Partway from the active entries to system-k.tmp. -/
theorem Moving.packing (h : Moving o k t d) {rest : List Name} {a' t' : Entries}
    (hpart : Dir.Partway Node.replaces d.active t rest a' t') :
    Moving o k t' (d.withMove k a' t') where
  tmp := Data.withMove_tmp ..
  noOther := (Data.withMove_tmp_other ..).trans h.noOther
  holds := by
    show Holds (t' ∪ a') (o k)
    rw [hpart.union_dst fun n ha hn => absurd hn (h.split n ha)]
    exact h.holds
  split n ha hn := h.split n (hpart.mem_src ha) ((hpart.mem_dst ha).mp hn)
  unsealed := h.unsealed
  other := h.other

/-- Partway back. -/
theorem Moving.unpacking (h : Moving o k t d) {rest : List Name} {a' t' : Entries}
    (hpart : Dir.Partway Node.replaces t d.active rest t' a') :
    Moving o k t' (d.withMove k a' t') where
  tmp := Data.withMove_tmp ..
  noOther := (Data.withMove_tmp_other ..).trans h.noOther
  holds := by
    show Holds (t' ∪ a') (o k)
    rw [hpart.union]
    exact h.holds
  split n ha hn := h.split n ((hpart.mem_dst hn).mp ha) (hpart.mem_src hn)
  unsealed := h.unsealed
  other := h.other

/-- A move to system-k.tmp ends with both sealed. -/
theorem packSeal_away (h : Moving o k t w.data) :
    (packAll k >>= fun _ => op (mvTmpSealed k)).wp
      (fun _ w' => Away o w'.data ∧ w'.enabled = w.enabled)
      (fun _ w' => Upright o w'.data) w := by
  have hne := SysId.other_ne k
  refine wp_mono (packSeal_spec h.tmp h.unsealed) ?_ ?_
  · rintro _ _ ⟨a', t', cs, hpart, -, rfl⟩
    obtain rfl : a' = ∅ := Partway.eq_empty h.split hpart
    have hholds := (h.packing hpart).holds
    rw [Data.withMove, Finmap.union_empty] at hholds
    refine ⟨⟨rfl, ?_, ?_⟩, rfl⟩
    · rw [SysId.forall_iff k]
      refine ⟨⟨t', Function.update_self .., hholds⟩, ?_⟩
      obtain ⟨c, hc, hholds'⟩ := h.other
      exact ⟨c, (Function.update_of_ne hne _ _).trans hc, hholds'⟩
    · unfold Data.Settled
      rw [SysId.forall_iff k]
      exact ⟨Function.update_self .., (Function.update_of_ne hne _ _).trans h.noOther⟩
  · rintro _ _ ⟨-, rest, a', t', cs, hpart, -, rfl⟩
    exact (h.packing hpart).upright

/-- A move from system-k.tmp ends with system `k` running. -/
theorem unpackRemove_running (hplain : Plain o) (h : Moving o k t w.data) :
    (unpackAll k >>= fun _ => opData (rmdirTmp k)).wp (fun _ w' => Running o k w'.data)
      (fun _ w' => Upright o w'.data) w := by
  have hne := SysId.other_ne k
  refine wp_mono (unpackRemove_spec h.tmp (h.noMedia hplain)) ?_ ?_
  · rintro _ _ ⟨a', t', cs, hpart, -, rfl⟩
    obtain rfl : t' = ∅ := Partway.eq_empty (fun n hn ha => h.split n ha hn) hpart
    have hmoved := h.unpacking hpart
    have hholds := hmoved.holds
    rw [Data.withMove, Finmap.empty_union] at hholds
    have hrm : rmdirTmp k (w.data.withMove k a' ∅) = { w.data.withMove k a' ∅ with
        tmp := Function.update (w.data.withMove k a' ∅).tmp k none } := if_pos hmoved.tmp
    show Running o k (rmdirTmp k (w.data.withMove k a' ∅))
    rw [hrm]
    refine ⟨hholds, h.unsealed, h.other, ?_⟩
    unfold Data.Settled
    rw [SysId.forall_iff k]
    exact ⟨Function.update_self .., (Function.update_of_ne hne _ _).trans hmoved.noOther⟩
  · rintro _ _ ⟨-, rest, a', t', cs, hpart, -, rfl⟩
    exact (h.unpacking hpart).upright

/-! ## Opening -/

/-- What opening makes of the state: a move under way is finished. -/
def Mode.opened : Mode → Mode
  | .running k => .running k
  | .moving _ => .away
  | .away => .away

/-- Both rounds of the loop: the one for the system that is on its way finishes the
move, and the other does nothing. -/
theorem finishMoves_stands (h : Stands o w.data mode) :
    (forM SysId.all finishMove).wp
      (fun _ w' => Stands o w'.data mode.opened ∧ w'.enabled = w.enabled)
      (fun _ w' => Upright o w'.data) w := by
  have hskip : ∀ {w₁ : World} {k : SysId} {Q : Unit → World → Prop}, w₁.data.tmp k = none →
      Q () w₁ → (finishMove k).wp Q (fun _ w' => Upright o w'.data) w₁ :=
    fun hnone hQ => finishMove_skip hnone hQ
  have hfinish : ∀ {w₁ : World} {k : SysId} {t : Entries}, Moving o k t w₁.data →
      (finishMove k).wp (fun _ w' => Away o w'.data ∧ w'.enabled = w₁.enabled)
        (fun _ w' => Upright o w'.data) w₁ := by
    intro w₁ k t hmoving
    refine wp_when (fun _ => packSeal_away hmoving) fun hno => ?_
    rw [hmoving.tmp] at hno
    cases hno
  rw [wp_forM_all]
  cases mode with
  | running k => exact hskip (h.settled _) (hskip (h.settled _) ⟨h, rfl⟩)
  | away => exact hskip (h.settled _) (hskip (h.settled _) ⟨h, rfl⟩)
  | moving k =>
      obtain ⟨t, h⟩ := h
      cases k with
      | one =>
          refine wp_mono (hfinish h) ?_ fun _ _ h' => h'
          rintro _ w₁ ⟨haway, hen⟩
          exact hskip (haway.settled _) ⟨haway, hen⟩
      | two => exact hskip h.noOther (hfinish h)

theorem dualdataOpen_stands (hplain : Plain o) (h : Stands o w.data mode) :
    (dualdataOpen env).wp (fun _ w' => Stands o w'.data mode.opened ∧ w'.enabled = true)
      (fun _ w' => Upright o w'.data) w := by
  have hup : Upright o w.data := ⟨mode, h⟩
  have hrm := hup.rmdirSealed_eq hplain
  have hclean : cleaned w.data = w.data := by rw [cleaned, hrm, hrm]
  refine dualdataOpen_rule (hup.legacyDir_eq_none hplain) ?_ ?_ ?_
  · intro _ w' hw' _
    rw [hw'.data]
    exact hup
  · rintro w' - - (hw' | hw')
    · rw [hw', hrm]
      exact hup
    · rw [hw', hclean]
      exact hup
  · rintro w' - - hw' hen
    rw [hclean] at hw'
    refine wp_mono (finishMoves_stands (by rw [hw']; exact h)) ?_ fun _ _ h' => h'
    rintro _ w₁ ⟨h₁, hen₁⟩
    have hup₁ : Upright o w₁.data := ⟨_, h₁⟩
    exact ⟨hup₁.legacyDir_eq_none hplain, hen₁.trans hen, hup₁, h₁, hup₁.hasSealed⟩

/-! ## Switching -/

/-- Packing the other system puts it away if it is the one that runs. -/
theorem pack_stands (h : Stands o w.data mode.opened) :
    (pack u.other).wp (fun _ w' => Running o u w'.data ∨ Away o w'.data)
      (fun _ w' => Upright o w'.data) w := by
  have hskip : SealedAt o u.other w.data → Running o u w.data ∨ Away o w.data →
      (pack u.other).wp (fun _ w' => Running o u w'.data ∨ Away o w'.data)
        (fun _ w' => Upright o w'.data) w := by
    intro hsealed hready
    refine wp_when (fun hnone => ?_) fun _ => hready
    exact absurd (Option.isNone_iff_eq_none.mp hnone) hsealed.ne_none
  have haway : Away o w.data → (pack u.other).wp
      (fun _ w' => Running o u w'.data ∨ Away o w'.data) (fun _ w' => Upright o w'.data) w :=
    fun h => hskip (h.sealed _) (.inr h)
  cases mode with
  | moving _ | away => exact haway h
  | running k =>
      rcases SysId.eq_or_other u k with rfl | rfl
      · exact hskip h.other (.inl h)
      · refine wp_when (fun _ => ?_) fun hsome => ?_
        · have hmk : mkdirTmp u.other w.data = w.data.withMove u.other w.data.active ∅ := by
            rw [mkdirTmp, h.settled]
            rfl
          have hmoving : Moving o u.other ∅ (w.updateData (mkdirTmp u.other)).data := by
            rw [World.updateData_data, hmk]
            refine ⟨Data.withMove_tmp .., (Data.withMove_tmp_other ..).trans (h.settled _), ?_,
              fun n _ => Finmap.notMem_empty, h.unsealed, h.other⟩
            rw [Finmap.empty_union]
            exact h.active
          refine ⟨h.upright, wp_mono (packSeal_away hmoving) ?_ fun _ _ h' => h'⟩
          exact fun _ w' h' => .inr h'.1
        · rw [h.unsealed] at hsome
          cases hsome

theorem unpack_stands (hplain : Plain o) (h : Running o u w.data ∨ Away o w.data) :
    (unpack u).wp (fun _ w' => Running o u w'.data) (fun _ w' => Upright o w'.data) w := by
  rw [unpack, wp_bind]
  rcases h with h | h
  · refine wp_when (fun hsome => ?_) fun _ => wp_when (fun hsome => ?_) fun _ => h
    · rw [h.unsealed] at hsome
      cases hsome
    · rw [h.settled u] at hsome
      cases hsome
  · obtain ⟨s, hs, hholds⟩ := h.sealed u
    refine wp_when (fun _ => ?_) fun hno => ?_
    · rw [wp_opData, mvSealedTmp_eq hs]
      have hne := SysId.other_ne u
      have hmoving : Moving o u s { w.data with
          sealed := Function.update w.data.sealed u none
          tmp := Function.update w.data.tmp u (some s) } := by
        obtain ⟨c, hc, hholds'⟩ := h.sealed u.other
        refine ⟨Function.update_self .., (Function.update_of_ne hne _ _).trans (h.settled _), ?_,
          ?_, Function.update_self .., c, (Function.update_of_ne hne _ _).trans hc, hholds'⟩
        · show Holds (s ∪ w.data.active) (o u)
          rw [h.active, Finmap.union_empty]
          exact hholds
        · intro n hn
          change n ∈ w.data.active at hn
          rw [h.active] at hn
          exact absurd hn Finmap.notMem_empty
      refine ⟨h.upright, wp_when (fun _ => unpackRemove_running hplain hmoving) fun hno => ?_⟩
      rw [hmoving.tmp] at hno
      cases hno
    · rw [hs, h.settled u] at hno
      cases hno

theorem switchtodata_stands (hplain : Plain o) (h : Stands o w.data mode.opened)
    (hen : w.enabled = true) :
    (dualdataSwitchtodata (some u)).wp (fun _ w' => Running o u w'.data)
      (fun _ w' => Upright o w'.data) w := by
  refine wp_when (fun _ => ?_) fun hno => ?_
  · simp only [wp_bind]
    refine wp_mono (pack_stands h) ?_ fun _ _ h' => h'
    intro _ w₁ h₁
    refine wp_mono (unpack_stands hplain h₁) ?_ fun _ _ h' => h'
    intro _ w₂ h₂
    refine wp_mono createLayoutVersion_spec ?_ ?_
    · rintro _ _ (⟨-, rfl⟩ | ⟨hnew, rfl⟩)
      · exact h₂
      · exact ⟨h₂.active.insert hnew _, h₂.unsealed, h₂.other, h₂.settled⟩
    · rintro _ _ ⟨-, rfl⟩
      exact h₂.upright
  · rw [hen] at hno
    cases hno

/-! ## The nodes and the bootmark -/

/-- Both boot nodes and both system nodes lead to the partitions of system `u`. -/
structure NodesFor (u : SysId) (nodes : Nat → Option Nat) : Prop where
  boot : ∀ part ∈ [partnumBoot, partnumBoot1],
    nodes part = some (match u with | .one => partnumBoot | .two => partnumBoot1)
  system : ∀ part ∈ [partnumSystem, partnumSystem1],
    nodes part = some (match u with | .one => partnumSystem | .two => partnumSystem1)

theorem dualbootHacknodes_nodes (u : SysId) :
    (dualbootHacknodes env (some u)).wp (fun _ w' => NodesFor u w'.nodes) (fun _ _ => True) w := by
  have hmk : ∀ {part minor : Nat} {w₁ : World} {Q : Unit → World → Prop},
      Q () { w₁ with nodes := Function.update w₁.nodes part (some minor) } →
      (mknod env part minor).wp Q (fun _ _ => True) w₁ := by
    intro part minor w₁ Q hQ
    rw [mknod, wp_bind]
    exact wp_require (fun _ => ⟨trivial, hQ⟩) fun _ => trivial
  cases u with
  | one | two =>
      simp only [dualbootHacknodes, wp_bind]
      refine ⟨trivial, hmk (hmk (hmk (hmk ⟨?_, ?_⟩)))⟩ <;>
        simp [partnumBoot, partnumBoot1, partnumSystem, partnumSystem1, Function.update_apply]

section Beside

variable {P : (Nat → Option Nat) → (Nat → UInt8) → Prop}

/-- Nothing that is done to /data changes the nodes or the bootmark. -/
theorem packSeal_beside (k : SysId) : Keeps (fun w => P w.nodes w.misc)
    (packAll k >>= fun _ => op (mvTmpSealed k)) := by
  have hentry : ∀ n (w : World), (packEntry k n w).nodes = w.nodes ∧
      (packEntry k n w).misc = w.misc := by
    intro n w
    unfold packEntry
    split <;> exact ⟨rfl, rfl⟩
  have hmv : ∀ w : World, (mvTmpSealed k w).nodes = w.nodes ∧ (mvTmpSealed k w).misc = w.misc := by
    intro w
    unfold mvTmpSealed
    split
    · exact ⟨rfl, rfl⟩
    · split
      · exact ⟨rfl, rfl⟩
      · dsimp only
        split <;> exact ⟨rfl, rfl⟩
  refine .bind (.bind (.get _) fun _ => .forM fun n _ => .op fun w h => ?_) fun _ =>
    .op fun w h => ?_
  · rwa [(hentry n w).1, (hentry n w).2]
  · rwa [(hmv w).1, (hmv w).2]

theorem dualdataOpen_beside : Keeps (fun w => P w.nodes w.misc) (dualdataOpen env) := by
  have hdata : ∀ f : Data → Data, Keeps (fun w => P w.nodes w.misc) (opData f) :=
    fun f => .op fun _ h => h
  refine .bind (.bind (.get _) fun _ => .bind (.require _) fun _ => .bind (.op fun _ h => h)
    fun _ => .bind (.get _) fun _ => .bind (.require _) fun _ => .op fun _ h => h) fun _ => ?_
  refine .bind (.forM fun k _ => hdata _) fun _ => .bind (.forM fun k _ => hdata _) fun _ => ?_
  refine .bind (.forM fun k _ => .when (packSeal_beside k)) fun _ => ?_
  refine .bind (.forM fun k _ => .when (.branch (hdata _) (hdata _))) fun _ => ?_
  exact .when (.op fun _ h => h)

theorem switchtodata_beside (u : SysId) :
    Keeps (fun w => P w.nodes w.misc) (dualdataSwitchtodata (some u)) := by
  have hdata : ∀ f : Data → Data, Keeps (fun w => P w.nodes w.misc) (opData f) :=
    fun f => .op fun _ h => h
  have hentry : ∀ n (w : World), (unpackEntry u n w).nodes = w.nodes ∧
      (unpackEntry u n w).misc = w.misc := by
    intro n w
    unfold unpackEntry
    split
    · exact ⟨rfl, rfl⟩
    · split <;> exact ⟨rfl, rfl⟩
  have hunpack : Keeps (fun w => P w.nodes w.misc) (unpackAll u) := by
    refine .bind (.get _) fun _ => .forM fun n _ => .op fun w h => ?_
    rwa [(hentry n w).1, (hentry n w).2]
  refine .when (.bind (.when (.bind (hdata _) fun _ => packSeal_beside u.other)) fun _ => ?_)
  refine .bind (.bind (.when (hdata _)) fun _ => .when (.bind hunpack fun _ => hdata _)) fun _ => ?_
  exact .when (.branch (.bind (.get _) fun _ => .bind (hdata _) fun _ => hdata _) (hdata _))

end Beside

/-! ## Commands -/

/-- Everything is about system `u`: the nodes, the bootmark and /data. -/
structure Agrees (o : SysId → Entries) (u : SysId) (w : World) : Prop where
  nodes : NodesFor u w.nodes
  bootmark : dualbootRead w.misc = u
  data : Running o u w.data

theorem bootInto_agrees (hplain : Plain o) (h : Upright o w.data)
    (hmisc : dualbootRead w.misc = u) :
    (bootInto env (some u)).wp (fun _ w' => Agrees o u w') (fun _ w' => Upright o w'.data) w := by
  have hsame : ∀ w' : World, w'.data = w.data → Upright o w'.data := fun w' hw' => by rwa [hw']
  rw [bootInto, wp_bind]
  have hhack := wp_and (@dualbootHacknodes_nodes env w u)
    (@dualbootHacknodes_keeps env (fun d misc _ _ => d = w.data ∧ misc = w.misc) (some u) w
      ⟨rfl, rfl⟩)
  refine wp_mono hhack ?_ fun _ w' hw' => hsame w' hw'.2.1
  rintro _ w₁ ⟨hnodes, hdata, hmisc₁⟩
  have hbeside : NodesFor u w₁.nodes ∧ dualbootRead w₁.misc = u := ⟨hnodes, by rw [hmisc₁, hmisc]⟩
  rw [wp_bind, mountData, wp_bind]
  refine wp_require (fun _ => ?_) fun _ => hsame w₁ hdata
  rw [wp_op]
  refine ⟨hsame w₁ hdata, ?_⟩
  obtain ⟨mode, hmode⟩ := hsame w₁ hdata
  have hopen := wp_and (@dualdataOpen_stands o env { w₁ with mounted := true } mode hplain hmode)
    (dualdataOpen_beside (P := fun nodes misc => NodesFor u nodes ∧ dualbootRead misc = u)
      { w₁ with mounted := true } hbeside)
  rw [wp_bind]
  refine wp_mono hopen ?_ fun _ _ h' => h'.1
  rintro _ w₂ ⟨⟨hmode₂, hen⟩, hbeside₂⟩
  have hswitch := wp_and (switchtodata_stands (u := u) hplain hmode₂ hen)
    (switchtodata_beside (P := fun nodes misc => NodesFor u nodes ∧ dualbootRead misc = u) u w₂
      hbeside₂)
  rw [wp_bind]
  refine wp_mono hswitch ?_ fun _ _ h' => h'.1
  rintro _ w₃ ⟨hrunning, hnodes₃, hmisc₃⟩
  exact ⟨hrunning.upright, hnodes₃, hmisc₃, hrunning⟩

theorem bootInto_completes (hworks : Works env) (hbinds : w.binds = 0) :
    (bootInto env (some u)).wp (fun _ _ => True) (fun why _ => why = .exit → False) w := by
  refine bootInto_reaches hbinds (fun _ _ _ hexit hwhy => hexit hwhy hworks) ?_
  intro _ w₁ _ hmounted hbinds₁
  have hfree : ¬ Blocked env w₁ := by
    rintro (hno | hno)
    · rw [hmounted] at hno
      cases hno
    · rw [hbinds₁, hworks.bind] at hno
      cases hno
  rw [wp_bind]
  refine wp_mono dualdataOpen_noExit (fun _ w₂ _ => ?_) fun _ _ hexit hwhy => hfree (hexit hwhy)
  rw [wp_bind]
  refine wp_mono (switch_noExit u w₂) (fun _ w₃ _ => ?_) fun _ _ hkilled hexit => ?_
  · exact ⟨Stop.of_killed_eq_exit, trivial⟩
  · rw [hkilled] at hexit
    cases hexit

/-- The commands that leave dual data on. -/
def Command.keepsDual : Command → Bool
  | .enabledualdata _ | .disabledualdata => false
  | _ => true

/-- A command that completes and is for a system leaves everything at that system. -/
def Done (o : SysId → Entries) (target : Option SysId) (w' : World) : Prop :=
  Upright o w'.data ∧ ∀ u, target = some u → Agrees o u w'

theorem command_stands (hplain : Plain o) (h : Upright o w.data) {c : Command}
    (hc : c.keepsDual = true) :
    (c.script env).wp (fun _ w' => Done o (c.target w.misc) w') (fun _ w' => Upright o w'.data)
      w := by
  have hagrees : ∀ {u : SysId} {w' : World}, Agrees o u w' → Done o (some u) w' :=
    fun h => ⟨h.data.upright, fun _ hu => Option.some.inj hu ▸ h⟩
  have hset : ∀ which, (dualbootWrite env which >>= fun ok => require ok >>= fun _ =>
      bootInto env which).wp (fun _ w' => Done o which w') (fun _ w' => Upright o w'.data) w := by
    intro which
    cases which with
    | none => exact h
    | some u =>
        unfold dualbootWrite
        dsimp only
        split
        · exact h
        · refine ⟨h, wp_mono (bootInto_agrees hplain ?_ ?_) (fun _ _ h' => hagrees h') ?_⟩
          · exact h
          · exact dualbootRead_writeMisc u w.misc
          · exact fun _ _ h' => h'
  cases c with
  | set which => exact hset which
  | save which => exact hset which
  | load =>
      show (get (fun w : World => dualbootRead w.misc) >>= fun which =>
        bootInto env (some which)).wp _ _ w
      rw [wp_bind, wp_get]
      exact wp_mono (bootInto_agrees hplain h rfl) (fun _ _ h' => hagrees h') fun _ _ h' => h'
  | get =>
      obtain ⟨mode, hmode⟩ := h
      show (dualdataOpen env >>= fun _ => dualdataClose).wp _ _ w
      rw [wp_bind]
      refine wp_mono (dualdataOpen_stands hplain hmode) ?_ fun _ _ h' => h'
      rintro _ w₁ ⟨h₁, -⟩
      exact ⟨⟨_, h₁⟩, ⟨_, h₁⟩, fun _ hu => by cases hu⟩
  | enabledualdata _ | disabledualdata => cases hc

theorem command_completes {c : Command} (hworks : Works env) (hdd : env.fails .dd = false)
    (hbinds : w.binds = 0) (hu : c.target w.misc = some u) :
    (c.script env).wp (fun _ _ => True) (fun why _ => why = .exit → False) w := by
  have hset : (dualbootWrite env (some u) >>= fun ok => require ok >>= fun _ =>
      bootInto env (some u)).wp (fun _ _ => True) (fun why _ => why = .exit → False) w := by
    rw [dualbootWrite]
    simp only [hdd]
    exact ⟨Stop.of_killed_eq_exit, bootInto_completes hworks hbinds⟩
  cases c with
  | set which | save which =>
      obtain rfl : which = some u := hu
      exact hset
  | load =>
      show (get (fun w : World => dualbootRead w.misc) >>= fun which =>
        bootInto env (some which)).wp _ _ _
      rw [wp_bind, wp_get]
      exact bootInto_completes hworks hbinds
  | get | enabledualdata _ | disabledualdata => cases hu

/-! ## Runs -/

theorem upright_reachable (hplain : Plain o) {w₀ : World} {calls : List Call}
    (h₀ : Upright o w₀.data) (hrun : Run step (fun _ c => c.cmd.keepsDual = true) w₀ calls w) :
    Upright o w.data := by
  refine hrun.invariant (I := fun w => Upright o w.data) h₀ ?_
  intro w c w' h hc hstep
  obtain rfl := Option.some.inj hstep
  have hcommand := @command_stands o c.env (w.start c.env) hplain h c.cmd hc
  exact run_state (P := fun w => Upright o w.data)
    (wp_mono hcommand (fun _ _ h' => h'.1) fun _ _ h' => h') c.budget

/-- After any run of `set`, `save`, `load` and `get`, with whatever ids and whatever
failures, each killed wherever one likes: whenever the next switch completes, the nodes and
the bootmark are those of its system, that system's entries are active, none missing and
none of the other's among them, and the other's are sealed; and it does complete if nobody
kills it and nothing fails. -/
theorem switch_repairs (hplain : Plain o) {w₀ : World} {calls : List Call}
    (h₀ : Upright o w₀.data) (hrun : Run step (fun _ c => c.cmd.keepsDual = true) w₀ calls w)
    {c : Command} (hu : c.target w.misc = some u) :
    (∀ env budget w', exec env budget c w = .done () w' → Agrees o u w') ∧
    ∀ env, Works env → env.fails .dd = false → ∃ w', exec env none c w = .done () w' := by
  have h := upright_reachable hplain h₀ hrun
  have hc : c.keepsDual = true := by cases c <;> first | rfl | cases hu
  constructor
  · intro env budget w' hdone
    have hmeets := run_meets (@command_stands o env (w.start env) hplain h c hc) budget
    have hexec : (c.script env).run budget (w.start env) = .done () w' := hdone
    rw [hexec] at hmeets
    exact hmeets.2 u hu
  · intro env hworks hdd
    obtain ⟨_, w', hdone, -⟩ :=
      run_none_done (command_completes (w := w.start env) hworks hdd rfl hu) not_false
    exact ⟨w', hdone⟩

/-- A switch to system 2 is killed when it has packed the app of system 1; a switch back
to system 1 repairs it. -/
theorem switch_repairs_killed :
    (killedPacking.data.tmp .one).isSome = true ∧
    ∃ w', exec allWorks none (.set (some .one)) killedPacking = .done () w' ∧
      Agrees twoSystems .one w' := by
  have h₀ : Upright twoSystems twoSystemsWorld.data :=
    ⟨.running .one, .refl _, rfl, ⟨_, rfl, .refl _⟩, fun _ => rfl⟩
  have hrun : Run step (fun _ c => c.cmd.keepsDual = true) twoSystemsWorld
      [.of (.set (some .two)) (some 16)] killedPacking := .snoc .nil rfl rfl
  obtain ⟨hagrees, hends⟩ := switch_repairs twoSystems_start.plain h₀ hrun
    (c := .set (some .one)) rfl
  obtain ⟨w', hw'⟩ := hends allWorks ⟨fun _ _ => rfl, rfl, rfl⟩ rfl
  exact ⟨by decide, w', hw', hagrees allWorks none w' hw'⟩

end Pisces.Dualboot
