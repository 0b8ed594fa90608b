import Pisces.Dualboot.Bootmark

/-!
# The two systems do not see each other's data

Between completed commands the running system, or recovery, does with the
active entries what it likes. `Tracked` follows such a history: which system is
active, and what each system had when it was last left. Every switch brings that
back, as long as no switch seals an empty /data: the next `dualdata_open` takes
an empty sealed directory for none at all. Nor must the entries have names the
script gives a meaning to: a directory system0 or system1 in /data is taken for
the data of another system, and media cannot be moved.
-/

namespace Pisces.Dualboot

open Pisces.Lib Pisces.Lib.Script

/-- The world, the system that is active, and what each system had active when
it was last left. -/
structure Tracked where
  world : World
  cur : SysId
  left : SysId → Entries

inductive Happening where
  /-- A command that runs to its end. -/
  | call (env : Env) (budget : Option Nat) (c : Command)
  /-- The active entries become others. -/
  | change (a : Entries)

/-- The system a command switches to, if it is one that switches. -/
def Command.target (misc : Nat → UInt8) : Command → Option SysId
  | .set which => which
  | .save which => which
  | .load => some (dualbootRead misc)
  | _ => none

def Tracked.switch (t : Tracked) (w' : World) (n : SysId) : Tracked :=
  if n = t.cur then { t with world := w' }
  else { world := w', cur := n, left := Function.update t.left t.cur t.world.data.active }

def track (t : Tracked) : Happening → Option Tracked
  | .call env budget c =>
      match exec env budget c t.world with
      | .stopped _ _ => none
      | .done _ w' =>
          match c.target t.world.misc with
          | none => some { t with world := w' }
          | some n => some (t.switch w' n)
  | .change a =>
      if "media" ∈ a then none
      else some { t with world := t.world.updateData fun d => { d with active := a } }

/-- What is asked of the state a command starts in: no legacy directory in
/data, and something in it if it is to be packed. -/
def Unspoilt (t : Tracked) : Happening → Prop
  | .call _ _ c =>
      (c = .get ∨ (c.target t.world.misc).isSome) ∧ (∀ k, t.world.data.legacyDir k = none) ∧
      ∀ n, c.target t.world.misc = some n → t.world.data.sealed n.other = none →
        t.world.data.active ≠ ∅
  | .change _ => True

/-- Equal but for .layout_version. -/
def SameButVersion (a b : Entries) : Prop := ∀ n, n ≠ layoutVersion → a.lookup n = b.lookup n

theorem versioned_same (a : Entries) : SameButVersion (versioned a) a := by
  intro n hn
  unfold versioned
  split
  · rfl
  · rw [Finmap.lookup_insert_of_ne _ hn]

/-- The system that is not active has in its sealed directory what it had when
it was left. -/
structure Isolated (t : Tracked) : Prop where
  enabled : Enabled t.cur.other (t.left t.cur.other) t.world.data
  noMedia : "media" ∉ t.left t.cur.other
  active : "media" ∉ t.world.data.active

variable {t t' : Tracked} {env : Env} {budget : Option Nat} {c : Command} {n : SysId} {w' : World}

theorem dualbootWrite_binds {w : World} (n : SysId) :
    (dualbootWrite env (some n)).wp (fun _ w' => w'.data = w.data ∧ w'.binds = w.binds)
      (fun _ _ => True) w := by
  unfold dualbootWrite
  dsimp only
  split
  · exact ⟨rfl, rfl⟩
  · exact ⟨trivial, rfl, rfl⟩

/-- The one part of a command that depends on which it is. -/
theorem bootInto_enabled {q : SysId} {s : Entries} {w : World} (h : Enabled q s w.data)
    (hlegacy : ∀ k, w.data.legacyDir k = none) (hmedia : "media" ∉ s) (hbinds : w.binds = 0) :
    (bootInto env (some n)).wp (fun _ w' => Switched q s n w w') (fun _ _ => True) w := by
  refine bootInto_reaches hbinds (fun _ _ _ _ => trivial) ?_
  intro _ w₁ hw₁ _ _
  have hdata : w₁.data = w.data := hw₁.data
  have hopen := @openSwitch_enabled q s env w₁ n (by rwa [hdata]) (by rwa [hdata]) hmedia
  refine wp_mono hopen ?_ fun _ _ _ => trivial
  rintro _ w₂ (⟨hn, hw₂⟩ | ⟨hn, hw₂⟩)
  · exact .inl ⟨hn, hw₂.active, hw₂.sealed.trans (by rw [hdata]), hw₂.other, hw₂.settled,
      hw₂.misc.trans hw₁.misc⟩
  · exact .inr ⟨hn, hw₂.active.trans (by rw [hdata]), hw₂.sealed.trans (by rw [hdata]),
      hw₂.settled, hw₂.misc.trans hw₁.misc⟩

/-- A completed command, from a state with dual data on. -/
theorem exec_enabled {q : SysId} {s : Entries} {w : World} (h : Enabled q s w.data)
    (hlegacy : ∀ k, w.data.legacyDir k = none) (hmedia : "media" ∉ s)
    (hrun : exec env budget c w = .done () w') :
    (c = .get → w'.data = w.data) ∧
    ∀ n, c.target w.misc = some n → ∃ w₁ : World, w₁.data = w.data ∧ Switched q s n w₁ w' := by
  -- what the weakest precondition says of a run that is known to end
  have hended : ∀ {Q : Unit → World → Prop},
      (c.script env).wp Q (fun _ _ => True) (w.start env) → Q () w' := by
    intro Q hwp
    have hmeets := run_meets hwp budget
    rwa [show (c.script env).run budget (w.start env) = .done () w' from hrun] at hmeets
  have hset : ∀ n, (dualbootWrite env (some n) >>= fun ok => require ok >>= fun _ =>
      bootInto env (some n)).wp (fun _ w' => ∃ w₁ : World, w₁.data = w.data ∧ Switched q s n w₁ w')
        (fun _ _ => True) (w.start env) := by
    intro n
    rw [wp_bind]
    refine wp_mono (dualbootWrite_binds n) ?_ fun _ _ _ => trivial
    rintro ok w₁ ⟨hdata, hbinds⟩
    have hdata₁ : w₁.data = w.data := hdata
    rw [wp_bind]
    refine wp_require (fun _ => ?_) fun _ => trivial
    have hboot := @bootInto_enabled env n q s w₁ (by rwa [hdata₁]) (by rwa [hdata₁]) hmedia hbinds
    exact wp_mono hboot (fun _ w₂ hw₂ => ⟨w₁, hdata₁, hw₂⟩) fun _ _ _ => trivial
  cases c with
  | get =>
      refine ⟨fun _ => ?_, nofun⟩
      refine @hended (fun _ w' => w'.data = w.data) ?_
      show (dualdataOpen env >>= fun _ => dualdataClose).wp _ _ _
      rw [wp_bind]
      refine wp_mono (@dualdataOpen_enabled q s env (w.start env) h hlegacy) ?_ fun _ _ _ => trivial
      rintro _ w₁ ⟨hw₁, -⟩
      exact ⟨trivial, hw₁.data⟩
  | set which | save which =>
      refine ⟨nofun, ?_⟩
      rintro n ⟨⟩
      exact @hended (fun _ w' => ∃ w₁ : World, w₁.data = w.data ∧ Switched q s n w₁ w') (hset n)
  | load =>
      refine ⟨nofun, ?_⟩
      rintro n ⟨⟩
      refine @hended (fun _ w' => ∃ w₁ : World, w₁.data = w.data ∧
        Switched q s (dualbootRead w.misc) w₁ w') ?_
      have hboot := @bootInto_enabled env (dualbootRead w.misc) q s (w.start env) h hlegacy hmedia
        rfl
      exact wp_mono hboot (fun _ w₂ hw₂ => ⟨w.start env, rfl, hw₂⟩) fun _ _ _ => trivial
  | enabledualdata which => exact ⟨nofun, nofun⟩
  | disabledualdata => exact ⟨nofun, nofun⟩

/-! ## Histories -/

/-- The world after a command that starts with dual data on and something to
pack. -/
theorem Isolated.switch (h : Isolated t) {w₁ : World} (hw₁ : w₁.data = t.world.data)
    (hsw : Switched t.cur.other (t.left t.cur.other) n w₁ w')
    (hpack : t.world.data.sealed n.other = none → t.world.data.active ≠ ∅) :
    Isolated (t.switch w' n) ∧ SameButVersion w'.data.active
      (if n = t.cur then t.world.data.active else t.left n) := by
  have hnoMedia : ∀ {a : Entries}, "media" ∉ a → "media" ∉ versioned a := by
    intro a ha
    unfold versioned
    split
    · exact ha
    · rw [Finmap.mem_insert, not_or]
      exact ⟨by decide, ha⟩
  have hne := SysId.other_ne t.cur
  rcases hsw with ⟨rfl, hw'⟩ | ⟨rfl, hw'⟩
  · rw [SysId.other_other] at hpack
    have hsealed : w'.data.sealed t.cur = some t.world.data.active := by
      have hs := hw'.sealed
      rwa [SysId.other_other, hw₁] at hs
    have hother := h.enabled.other
    rw [SysId.other_other] at hother
    rw [Tracked.switch, if_neg hne, if_neg hne, hw'.active]
    refine ⟨⟨⟨?_, ?_, ?_, hw'.settled⟩, ?_, ?_⟩, versioned_same _⟩
    · simp only [SysId.other_other, Function.update_self]
      exact hsealed
    · simp only [SysId.other_other, Function.update_self]
      exact hpack hother
    · simp only [SysId.other_other]
      exact hw'.other
    · simp only [SysId.other_other, Function.update_self]
      exact h.active
    · simp only [hw'.active]
      exact hnoMedia h.noMedia
  · rw [SysId.other_other, Tracked.switch, if_pos rfl, if_pos rfl, hw'.active, hw₁]
    refine ⟨⟨⟨?_, h.enabled.nonempty, ?_, hw'.settled⟩, h.noMedia, ?_⟩, versioned_same _⟩
    · rw [hw'.sealed, hw₁]
      exact h.enabled.sealed
    · rw [hw'.sealed, hw₁]
      exact h.enabled.other
    · show "media" ∉ w'.data.active
      rw [hw'.active, hw₁]
      exact hnoMedia h.active

theorem Isolated.call (h : Isolated t) (hok : Unspoilt t (.call env budget c))
    (htrack : track t (.call env budget c) = some t') :
    Isolated t' ∧ ∀ n, c.target t.world.misc = some n → SameButVersion t'.world.data.active
      (if n = t.cur then t.world.data.active else t.left n) := by
  obtain ⟨hcmd, hlegacy, hpack⟩ := hok
  rw [track] at htrack
  split at htrack
  · cases htrack
  · next w' hrun =>
      obtain ⟨hget, hswitch⟩ := exec_enabled h.enabled hlegacy h.noMedia hrun
      split at htrack <;> rw [Option.some.injEq] at htrack <;> subst htrack
      · next hnone =>
          have hdata : w'.data = t.world.data := by
            refine hget (hcmd.resolve_right ?_)
            rw [hnone]
            exact Bool.false_ne_true
          refine ⟨⟨?_, h.noMedia, ?_⟩, fun n hn => ?_⟩
          · show Enabled _ _ w'.data
            rw [hdata]
            exact h.enabled
          · show "media" ∉ w'.data.active
            rw [hdata]
            exact h.active
          · rw [hnone] at hn
            cases hn
      · next n hn =>
          obtain ⟨w₁, hw₁, hsw⟩ := hswitch n hn
          obtain ⟨hiso, hsame⟩ := h.switch hw₁ hsw (hpack n hn)
          refine ⟨hiso, fun n' hn' => ?_⟩
          rw [hn, Option.some.injEq] at hn'
          subst hn'
          have hworld : (t.switch w' n).world = w' := by
            unfold Tracked.switch
            split <;> rfl
          rwa [hworld]

theorem Isolated.step {e : Happening} (h : Isolated t) (hok : Unspoilt t e)
    (htrack : track t e = some t') : Isolated t' := by
  cases e with
  | call env budget c => exact (h.call hok htrack).1
  | change a =>
      rw [track] at htrack
      split at htrack
      · cases htrack
      · next hmedia =>
          rw [Option.some.injEq] at htrack
          subst htrack
          exact ⟨⟨h.enabled.sealed, h.enabled.nonempty, h.enabled.other, h.enabled.settled⟩,
            h.noMedia, hmedia⟩

/-! ## The theorem -/

/-- At the start system `q` has `s` sealed, and the other system is active. -/
def Tracked.start (w : World) (q : SysId) (s : Entries) : Tracked := ⟨w, q.other, fun _ => s⟩

/-- In every history of completed commands and arbitrary changes of the active
entries in which no command starts with a legacy directory in /data and none
packs an empty one, dual data stays on, and every switch brings back what the
system had when it was last left. -/
theorem dualdata_isolated {q : SysId} {s : Entries} {w₀ : World} {es : List Happening}
    (henabled : Enabled q s w₀.data) (hactive : "media" ∉ w₀.data.active) (hmedia : "media" ∉ s)
    (hrun : Run track Unspoilt (.start w₀ q s) es t) :
    (∀ env budget w₁ w', w₁.data = t.world.data →
      (dualdataOpen env).run budget w₁ = .done () w' → w'.enabled = true) ∧
    ∀ env budget c n t', Unspoilt t (.call env budget c) →
      track t (.call env budget c) = some t' → c.target t.world.misc = some n →
      SameButVersion t'.world.data.active
        (if n = t.cur then t.world.data.active else t.left n) := by
  have hstart : Isolated (.start w₀ q s) := by
    refine ⟨?_, hmedia, hactive⟩
    rw [Tracked.start, SysId.other_other]
    exact henabled
  have hiso : Isolated t := by
    refine hrun.invariant (I := Isolated) hstart ?_
    exact fun t e t' h hok htrack => h.step hok htrack
  constructor
  · intro env budget w₁ w' hw₁ hdone
    have hen := hiso.enabled
    rw [← hw₁] at hen
    have hmeets := run_meets (@dualdataOpen_sees _ _ env w₁ hen) budget
    rw [hdone] at hmeets
    exact hmeets.2.2.2.2
  · intro env budget c n t' hok htrack hn
    exact (hiso.call hok htrack).2 n hn

/-- System 1 is left for system 2, which changes its app. -/
def changedInTwo : List Happening :=
  [.call allWorks none (.set (some .two)),
    .change (.ofList [("app", .file "new"), (layoutVersion, .file "1")])]

def afterChange : Tracked where
  world := (exec allWorks none (.set (some .two)) twoSystemsWorld).state.updateData
    fun d => { d with active := .ofList [("app", .file "new"), (layoutVersion, .file "1")] }
  cur := .two
  left := Function.update (fun _ => twoSystems .two) .one (twoSystems .one)

/-- Back in system 1 its own app is there. -/
theorem dualdata_isolated_back :
    ∃ t', track afterChange (.call allWorks none (.set (some .one))) = some t' ∧
      SameButVersion t'.world.data.active (twoSystems .one) := by
  have hmedia : "media" ∉ twoSystems .two := by decide
  have hok₀ : Unspoilt (.start twoSystemsWorld .two (twoSystems .two))
      (.call allWorks none (.set (some .two))) := by
    refine ⟨.inr rfl, fun k => ?_, fun n hn hnone => ?_⟩
    · cases k <;> decide
    · decide
  have hfirst : track (.start twoSystemsWorld .two (twoSystems .two))
      (.call allWorks none (.set (some .two))) =
      some { afterChange with
        world := (exec allWorks none (.set (some .two)) twoSystemsWorld).state } := rfl
  have hrun : Run track Unspoilt (.start twoSystemsWorld .two (twoSystems .two)) changedInTwo
      afterChange := .snoc (.snoc .nil hok₀ hfirst) trivial rfl
  have hok : Unspoilt afterChange (.call allWorks none (.set (some .one))) := by
    refine ⟨.inr rfl, fun k => ?_, fun n hn hnone => ?_⟩
    · cases k <;> decide
    · decide
  have hsome : (track afterChange (.call allWorks none (.set (some .one)))).isSome = true := by
    decide
  obtain ⟨t', ht'⟩ := Option.isSome_iff_exists.mp hsome
  have hback := (dualdata_isolated twoSystems_enabled (by decide) hmedia hrun).2
    allWorks none _ .one t' hok ht' rfl
  exact ⟨t', ht', hback⟩

/-- System 1 is wiped, and left with nothing in it. -/
def wipedAndLeft : Tracked where
  world := (exec allWorks none (.set (some .two))
    (twoSystemsWorld.updateData fun d => { d with active := ∅ })).state
  cur := .two
  left := Function.update (fun _ => twoSystems .two) .one ∅

/-- The next `dualdata_open` removes its empty sealed directory, and dual data
is off. -/
theorem wiped_system_ends_dualdata :
    Enabled .two (twoSystems .two) twoSystemsWorld.data ∧
    ∃ t w', Run track always (.start twoSystemsWorld .two (twoSystems .two))
        [.change ∅, .call allWorks none (.set (some .two))] t ∧
      (dualdataOpen allWorks).run none t.world = .done () w' ∧ w'.enabled = false := by
  have hrun : Run track always (.start twoSystemsWorld .two (twoSystems .two))
      [.change ∅, .call allWorks none (.set (some .two))] wipedAndLeft :=
    .snoc (.snoc .nil trivial rfl) trivial rfl
  have hdone : (dualdataOpen allWorks).run none wipedAndLeft.world =
      .done () ((dualdataOpen allWorks).run none wipedAndLeft.world).state :=
    Outcome.eq_done (by decide)
  exact ⟨twoSystems_enabled, wipedAndLeft, _, hrun, hdone, by decide⟩

end Pisces.Dualboot
