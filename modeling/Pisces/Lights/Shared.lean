import Mathlib.Data.List.Chain
import Pisces.Lib.Locked
import Pisces.Lights.Speaker

/-!
# Several callers of the lights

Every function of the HAL does its work under `g_lock`, and the work is several
writes, with a pause between two of them. `Pisces.Lights.Model` takes a call as one
step. Here a call is as many steps as it has accesses to the variables and the
files, and any number of threads call at the same time.

The calls then have the results that they have one after the other, and the LED
never shows a colour that is put together from two requests, also not while a call
is under way.
-/

namespace Pisces.Lights

open Pisces.Lib

section

variable (env : Env)

/-- `write_int`, and what comes after it. -/
def writeIntThen (f : File) (value : ℤ) (k : ℤ → Prog Hal ℤ) : Prog Hal ℤ :=
  .op (fun w => (writeInt env f value w).2) fun w => k (writeInt env f value w).1

def writeLedThen (red green blue : ℤ) (k : ℤ → Prog Hal ℤ) : Prog Hal ℤ :=
  writeIntThen env .ledRed red fun _ => writeIntThen env .ledGreen green fun _ =>
    writeIntThen env .ledBlue blue fun _ => writeIntThen env .ledUpdate 1 k

/-- `set_light_backlight` between lock and unlock. -/
def backlightBody (s : LightState) : Prog Hal ℤ :=
  let brightness : ℤ := rgbToBrightness2 s
  let finish (err : ℤ) : Prog Hal ℤ :=
    .op (fun w => { w with oldBacklight := brightness, lastBacklight := some (s, err) })
      fun _ => .done err
  .op id fun w =>
    if w.oldBacklight < 0 ∨ w.oldBacklight ≠ brightness then
      writeIntThen env .lcd0 (brightness / 2) fun err =>
        if err = 0 then writeIntThen env .lcd1 ((brightness + 1) / 2) finish else finish err
    else finish 0

/-- `set_light_buttons` between lock and unlock. -/
def buttonsBody (s : LightState) : Prog Hal ℤ :=
  let brightness : ℤ := rgbToBrightness s
  let finish (err : ℤ) : Prog Hal ℤ :=
    .op (fun w => { w with oldButtons := brightness, lastButtons := some (s, err) })
      fun _ => .done err
  .op id fun w =>
    if w.oldButtons < 0 ∨ w.oldButtons ≠ brightness then
      writeIntThen env .button brightness finish
    else finish 0

/-- `set_speaker_light_locked` -/
def speakerBody (s : LightState) : Prog Hal ℤ :=
  let light : Prog Hal ℤ :=
    writeLedThen env ((s.color >>> 16) &&& 0xFF).toNat ((s.color >>> 8) &&& 0xFF).toNat
      (s.color &&& 0xFF).toNat .done
  .op id fun w =>
    if w.speakerLight.color = s.color then .done 0
    else
      .op (fun w => { w with speakerLight := s }) fun _ =>
        if isLit s then writeLedThen env 0 0 0 fun _ => light else light

/-- `update_speaker_light_locked` -/
def updateBody : Prog Hal ℤ :=
  .op id fun w =>
    if isLit w.attention then speakerBody env w.attention
    else if isLit w.notification then speakerBody env w.notification
    else speakerBody env w.battery

def body (c : Call) : Prog Hal ℤ :=
  match c.light with
  | .backlight => backlightBody env c.state
  | .buttons => buttonsBody env c.state
  | .attention => .op (fun w => { w with attention := c.state }) fun _ => updateBody env
  | .notifications => .op (fun w => { w with notification := c.state }) fun _ => updateBody env
  | .battery => .op (fun w => { w with battery := c.state }) fun _ => updateBody env

end

/-! ## A call on its own -/

section

variable {env : Env}

theorem writeIntThen_run (f : File) (value : ℤ) (k : ℤ → Prog Hal ℤ) (w : Hal) :
    (writeIntThen env f value k).run w =
      (k (writeInt env f value w).1).run (writeInt env f value w).2 := rfl

theorem backlightBody_run (s : LightState) (w : Hal) :
    (backlightBody env s).run w = setLightBacklight env s w := by
  simp only [backlightBody, setLightBacklight, unlessSame, writeBacklight, Prog.run, id]
  split
  · rw [writeIntThen_run]
    split
    · rfl
    · rfl
  · rfl

theorem buttonsBody_run (s : LightState) (w : Hal) :
    (buttonsBody env s).run w = setLightButtons env s w := by
  simp only [buttonsBody, setLightButtons, unlessSame, Prog.run, id]
  split
  · rfl
  · rfl

theorem speakerBody_run (s : LightState) (w : Hal) :
    (speakerBody env s).run w = setSpeakerLightLocked env s w := by
  simp only [speakerBody, setSpeakerLightLocked, Prog.run, id]
  split
  · rfl
  · rw [Prog.run]
    split
    · rfl
    · rfl

theorem updateBody_run (w : Hal) : (updateBody env).run w = updateSpeakerLightLocked env w := by
  simp only [updateBody, updateSpeakerLightLocked, Prog.run, id]
  split
  · exact speakerBody_run ..
  · split
    · exact speakerBody_run ..
    · exact speakerBody_run ..

/-- Without anybody in between, a body does what the call does as one step. -/
theorem body_run (c : Call) (w : Hal) : (body env c).run w = setLight env c w := by
  obtain ⟨light, s⟩ := c
  cases light with
  | backlight => exact backlightBody_run s w
  | buttons => exact buttonsBody_run s w
  | attention | notifications | battery => exact updateBody_run _

/-! ## The LED during a call -/

/-- What the LED has shown it has shown. -/
def Showed (w w' : Hal) : Prop := w.latches <:+ w'.latches

theorem writeInt_showed (f : File) (value : ℤ) (w : Hal) :
    Showed w (writeInt env f value w).2 := by
  rw [Showed, writeInt]
  cases env w.writes with
  | some e => exact List.suffix_refl _
  | none =>
      simp only [Hal.store]
      split
      · exact List.suffix_cons _ _
      · exact List.suffix_refl _

theorem writeIntThen_keeps {f : File} {value : ℤ} {k : ℤ → Prog Hal ℤ}
    (h : ∀ r, (k r).Keeps Showed) : (writeIntThen env f value k).Keeps Showed :=
  ⟨writeInt_showed f value, fun _ => h _⟩

theorem writeLedThen_keeps {red green blue : ℤ} {k : ℤ → Prog Hal ℤ}
    (h : ∀ r, (k r).Keeps Showed) : (writeLedThen env red green blue k).Keeps Showed :=
  writeIntThen_keeps fun _ => writeIntThen_keeps fun _ => writeIntThen_keeps fun _ =>
    writeIntThen_keeps h

theorem speakerBody_keeps (s : LightState) : (speakerBody env s).Keeps Showed := by
  refine ⟨fun w => List.suffix_refl _, fun w => ?_⟩
  dsimp only
  split
  · trivial
  · refine ⟨fun w => List.suffix_refl _, fun w => ?_⟩
    dsimp only
    split
    · exact writeLedThen_keeps fun _ => writeLedThen_keeps fun _ => trivial
    · exact writeLedThen_keeps fun _ => trivial

theorem updateBody_keeps : (updateBody env).Keeps Showed := by
  refine ⟨fun w => List.suffix_refl _, fun w => ?_⟩
  dsimp only
  split
  · exact speakerBody_keeps _
  · split
    · exact speakerBody_keeps _
    · exact speakerBody_keeps _

theorem body_keeps (c : Call) : (body env c).Keeps Showed := by
  have hend : ∀ {f : Hal → Hal} {r : ℤ}, (∀ w, (f w).latches = w.latches) →
      (Prog.op f fun _ => .done r).Keeps Showed := by
    intro f r hf
    exact ⟨fun w => by simp only [Showed, hf w, List.suffix_refl], fun _ => trivial⟩
  obtain ⟨light, s⟩ := c
  cases light with
  | backlight =>
      refine ⟨fun w => List.suffix_refl _, fun w => ?_⟩
      dsimp only
      split
      · refine writeIntThen_keeps fun err => ?_
        split
        · exact writeIntThen_keeps fun _ => hend fun _ => rfl
        · exact hend fun _ => rfl
      · exact hend fun _ => rfl
  | buttons =>
      refine ⟨fun w => List.suffix_refl _, fun w => ?_⟩
      dsimp only
      split
      · exact writeIntThen_keeps fun _ => hend fun _ => rfl
      · exact hend fun _ => rfl
  | attention | notifications | battery =>
      exact ⟨fun w => List.suffix_refl _, fun _ => updateBody_keeps⟩

end

/-! ## The colours that have been on show -/

/-- The light is one of the three that share the LED. -/
def Light.onLed : Light → Bool
  | .backlight | .buttons => false
  | .attention | .notifications | .battery => true

/-- The sources and everything that was on show have a colour in `C`. -/
structure Coloured (C : ℤ → Prop) (w : Hal) : Prop where
  attention : C (rgb w.attention)
  notification : C (rgb w.notification)
  battery : C (rgb w.battery)
  latches : ∀ x ∈ w.latches, C x

section

variable {C : ℤ → Prop} {w w' : Hal}

theorem Coloured.of_vars (h : Coloured C w) (hvars : SameVars w w')
    (hlatches : w'.latches = w.latches) : Coloured C w' where
  attention := by rw [hvars.attention]; exact h.attention
  notification := by rw [hvars.notification]; exact h.notification
  battery := by rw [hvars.battery]; exact h.battery
  latches := by rw [hlatches]; exact h.latches

theorem setSpeakerLight_coloured (hblack : C 0) (h : Coloured C w) {s : LightState}
    (hs : C (rgb s)) : Coloured C (setSpeakerLightLocked works s w).2 := by
  obtain ⟨hatt, hnot, hbat⟩ := setSpeakerLight_sources works s w
  refine ⟨hatt ▸ h.attention, hnot ▸ h.notification, hbat ▸ h.battery, ?_⟩
  have hcons : ∀ {x : ℤ} {l : List ℤ}, C x → (∀ y ∈ l, C y) → ∀ y ∈ x :: l, C y := by
    intro x l hx hl
    exact List.forall_mem_cons.mpr ⟨hx, hl⟩
  rw [setSpeakerLightLocked]
  split
  · exact h.latches
  · dsimp only
    split
    · rw [writeLed_latches, writeLed_latches, rgb_eq]
      exact hcons hs (hcons hblack h.latches)
    · rw [writeLed_latches, rgb_eq]
      exact hcons hs h.latches

theorem updateSpeakerLight_coloured (hblack : C 0) (h : Coloured C w) :
    Coloured C (updateSpeakerLightLocked works w).2 := by
  rw [updateSpeakerLightLocked]
  split
  · exact setSpeakerLight_coloured hblack h h.attention
  · split
    · exact setSpeakerLight_coloured hblack h h.notification
    · exact setSpeakerLight_coloured hblack h h.battery

/-- A call brings no colour but its own. -/
theorem setLight_coloured (hblack : C 0) (h : Coloured C w) {c : Call}
    (hc : c.light.onLed = true → C (rgb c.state)) : Coloured C (setLight works c w).2 := by
  obtain ⟨light, s⟩ := c
  cases light with
  | backlight =>
      have hmid : Coloured C (unlessSame w.oldBacklight (rgbToBrightness2 s)
          (writeBacklight works (rgbToBrightness2 s)) w).2 :=
        unlessSame_meets (h.of_vars (writeBacklight_vars ..) (writeBacklight_latches ..)) h
      exact ⟨hmid.attention, hmid.notification, hmid.battery, hmid.latches⟩
  | buttons =>
      have hmid : Coloured C (unlessSame w.oldButtons (rgbToBrightness s)
          (writeInt works .button (rgbToBrightness s)) w).2 :=
        unlessSame_meets (h.of_vars (writeInt_vars ..) (writeInt_latches (by decide) ..)) h
      exact ⟨hmid.attention, hmid.notification, hmid.battery, hmid.latches⟩
  | attention =>
      exact updateSpeakerLight_coloured hblack
        ⟨hc rfl, h.notification, h.battery, h.latches⟩
  | notifications =>
      exact updateSpeakerLight_coloured hblack ⟨h.attention, hc rfl, h.battery, h.latches⟩
  | battery =>
      exact updateSpeakerLight_coloured hblack ⟨h.attention, h.notification, hc rfl, h.latches⟩

end

/-! ## Any number of callers -/

section

variable {τ : Type} {env : Env} {files : File → ℤ} {log : List (τ × Call × ℤ)} {w : Hal}

theorem load_coloured {C : ℤ → Prop} (hblack : C 0) (files : File → ℤ) :
    Coloured C (Hal.load files) := by
  have hzero : C (rgb ⟨0⟩) := by rwa [show rgb ⟨0⟩ = 0 by decide]
  exact ⟨hzero, hzero, hzero, List.forall_mem_singleton.mpr hblack⟩

theorem serial_shows (h : Locked.Serial (setLight works) (Hal.load files) log w) :
    ShowsPriority w := by
  induction h with
  | nil => exact load_shows files
  | @cons log w w' t c r _ hcall ih =>
      have hnext := setLight_shows ih c
      rw [hcall] at hnext
      exact hnext

/-- The order of the requests is the order in which their calls return. -/
def requestsOf {T : Type} (log : List (T × Call × ℤ)) : List Call :=
  (log.map fun entry => entry.2.1).reverse

theorem serial_requested (h : Locked.Serial (setLight env) (Hal.load files) log w) :
    Requested (requestsOf log) w := by
  induction h with
  | nil => exact load_requested files
  | @cons log w w' t c r _ hcall ih =>
      have hnext : Requested _ (setLight env c w).2 := setLight_requested ih c
      rw [hcall] at hnext
      rw [requestsOf, List.map_cons, List.reverse_cons]
      exact hnext

theorem serial_coloured {C : ℤ → Prop} (hblack : C 0)
    (h : Locked.Serial (setLight works) (Hal.load files) log w)
    (hC : ∀ t c r, (t, c, r) ∈ log → c.light.onLed = true → C (rgb c.state)) : Coloured C w := by
  induction h with
  | nil => exact load_coloured hblack files
  | @cons log w w' t c r _ hcall ih =>
      have hbefore := ih fun t c r hmem => hC t c r (List.mem_cons_of_mem _ hmem)
      have hnext := setLight_coloured hblack hbefore (hC t c r List.mem_cons_self)
      rw [hcall] at hnext
      exact hnext

variable [DecidableEq τ] {s : Locked.State τ Call Hal ℤ} {es : List (Locked.Event τ Call)}

theorem body_serial : (fun c => (body env c).run) = setLight env :=
  funext fun c => funext fun w => body_run c w

omit [DecidableEq τ] in
/-- The call that has the lock has shown part of what it would show on its own. -/
theorem holder_latches {w : Hal} (h : Locked.Inv (body env) Showed (Hal.load files) s w) {t : τ}
    (ht : s.holder = some t) :
    ∃ c, (s.pc t).of = some c ∧ s.shared.latches <:+ (setLight env c w).2.latches := by
  obtain ⟨c, p, hpc⟩ := h.holds t ht
  obtain ⟨-, hp, hkeeps⟩ := h.inside t c p hpc
  refine ⟨c, by rw [hpc]; rfl, ?_⟩
  rw [← body_run, ← hp]
  exact Prog.Keeps.run (R := Showed) (fun _ => List.suffix_refl _) List.IsSuffix.trans hkeeps
    s.shared

/-- However the steps of the calls of any number of threads mix, and whatever writes
fail: the calls that have returned gave the results that they give one after the
other, and left the HAL as that leaves it; and the one that has the lock has shown
part of what it would show on its own. -/
theorem calls_serialise
    (hrun : Run (Locked.step (body env)) always (Locked.init (Hal.load files)) es s) :
    ∃ w, Locked.Serial (setLight env) (Hal.load files) s.log w ∧
      (s.holder = none → s.shared = w) ∧
      ∀ t, s.holder = some t → ∃ c, .call t c ∈ es ∧
        s.shared.latches <:+ (setLight env c w).2.latches := by
  obtain ⟨w, h⟩ := Locked.serial body_keeps hrun
  refine ⟨w, body_serial ▸ h.serial, h.free, fun t ht => ?_⟩
  obtain ⟨c, hc, hlatches⟩ := holder_latches h ht
  exact ⟨c, (Locked.called hrun).1 t c hc, hlatches⟩

/-- While every write succeeds, the LED shows black or a colour that somebody asked
for, at every moment and also in the middle of a call; it was off before it showed a
new colour; and when nobody has the lock it shows the source of the highest priority
that is lit, the sources being the last requests of the calls that have returned. -/
theorem led_never_mixed
    (hrun : Run (Locked.step (body works)) always (Locked.init (Hal.load files)) es s) :
    (∀ x ∈ s.shared.latches, x = 0 ∨
      ∃ t c, .call t c ∈ es ∧ c.light.onLed = true ∧ x = rgb c.state) ∧
    OffBeforeOn s.shared.latches ∧
    (s.holder = none → Requested (requestsOf s.log) s.shared ∧
      s.shared.latches.head? = some (priorityColor s.shared)) := by
  obtain ⟨w, h⟩ := Locked.serial body_keeps hrun
  obtain ⟨hpcs, hlog⟩ := Locked.called hrun
  let C : ℤ → Prop := fun x =>
    x = 0 ∨ ∃ t c, .call t c ∈ es ∧ c.light.onLed = true ∧ x = rgb c.state
  have hasked : ∀ {t c}, .call t c ∈ es → c.light.onLed = true → C (rgb c.state) :=
    fun hmem hled => .inr ⟨_, _, hmem, hled, rfl⟩
  have hserial : Locked.Serial (setLight works) (Hal.load files) s.log w := body_serial ▸ h.serial
  have hshows := serial_shows hserial
  have hcolours : Coloured C w :=
    serial_coloured (.inl rfl) hserial fun t c r hmem => hasked (hlog t c r hmem)
  -- the state whose history the one on show is a part of
  have hend : ∃ w', ShowsPriority w' ∧ Coloured C w' ∧ s.shared.latches <:+ w'.latches := by
    cases hholder : s.holder with
    | none =>
        rw [h.free hholder]
        exact ⟨w, hshows, hcolours, List.suffix_refl _⟩
    | some t =>
        obtain ⟨c, hc, hlatches⟩ := holder_latches h hholder
        exact ⟨_, setLight_shows hshows c,
          setLight_coloured (.inl rfl) hcolours (hasked (hpcs t c hc)), hlatches⟩
  obtain ⟨w', hshows', hcolours', hsuffix⟩ := hend
  refine ⟨fun x hx => hcolours'.latches x (hsuffix.subset hx), hshows'.1.chain.suffix hsuffix,
    fun hfree => ?_⟩
  rw [h.free hfree, ← hshows.2]
  exact ⟨serial_requested hserial, hshows.1.head⟩

end

/-- Thread `a` tells the state of the battery and thread `b` notifies. It calls while
`a` has the lock, and it has the LED off and the first of its colours written when
we look. -/
def batteryAndNotification {T : Type} (a b : T) : List (Locked.Event T Call) :=
  [.call a ⟨.battery, ⟨0xff00ff00⟩⟩, .lock a, .step a, .call b ⟨.notifications, ⟨0xffff00ff⟩⟩] ++
    List.replicate 11 (.step a) ++ [.unlock a, .lock b] ++ List.replicate 9 (.step b)

theorem calls_serialise_midway :
    ∃ s, Run (Locked.step (body works)) always (Locked.init (Hal.load fun _ => 0))
        (batteryAndNotification true false) s ∧ s.holder = some false ∧
      ∃ w, Locked.Serial (setLight works) (Hal.load fun _ => 0) s.log w ∧
        ∃ c, .call false c ∈ batteryAndNotification true false ∧
          s.shared.latches <:+ (setLight works c w).2.latches := by
  have hsome : (runEvents (Locked.step (body works)) (Locked.init (Hal.load fun _ => 0))
      (batteryAndNotification true false)).isSome := by decide
  have hrun : Run (Locked.step (body works)) always (Locked.init (Hal.load fun _ => 0))
      (batteryAndNotification true false) _ :=
    Run.of_runEvents (fun _ _ _ => trivial) (Option.some_get hsome).symm
  obtain ⟨w, hserial, -, hholder⟩ := calls_serialise hrun
  exact ⟨_, hrun, rfl, w, hserial, hholder false rfl⟩

theorem led_never_mixed_midway :
    ∃ s, Run (Locked.step (body works)) always (Locked.init (Hal.load fun _ => 0))
        (batteryAndNotification true false) s ∧ s.shared.files .ledRed = 0xff ∧
      s.shared.files .ledBlue = 0 ∧ s.shared.latches = [0, 0x00ff00, 0, 0] ∧
      OffBeforeOn s.shared.latches := by
  have hsome : (runEvents (Locked.step (body works)) (Locked.init (Hal.load fun _ => 0))
      (batteryAndNotification true false)).isSome := by decide
  have hlatches : (Option.get _ hsome).shared.latches = [0, 0x00ff00, 0, 0] := by decide +revert
  have hred : (Option.get _ hsome).shared.files .ledRed = 0xff := by decide +revert
  have hblue : (Option.get _ hsome).shared.files .ledBlue = 0 := by decide +revert
  have hrun : Run (Locked.step (body works)) always (Locked.init (Hal.load fun _ => 0))
      (batteryAndNotification true false) _ :=
    Run.of_runEvents (fun _ _ _ => trivial) (Option.some_get hsome).symm
  exact ⟨_, hrun, hred, hblue, hlatches, (led_never_mixed hrun).2.1⟩

end Pisces.Lights
