import Pisces.Lights.Model

/-!
# The backlight and the buttons

The brightness asked for last is remembered whether it could be written or not.
After a request that failed, another one for the same brightness writes nothing
and returns 0. Without such a repetition a request that returns 0 is done.
-/

namespace Pisces.Lights

open Pisces.Lib

variable {env : Env}

/-! ## The numbers -/

theorem digit_le (color k : ℕ) : (color >>> k) &&& 0x00ff ≤ 255 := Nat.and_le_right

theorem rgbToBrightness2_le (s : LightState) : rgbToBrightness2 s ≤ 510 := by
  have hred := digit_le (s.color &&& 0x00ffffff).toNat 16
  have hgreen := digit_le (s.color &&& 0x00ffffff).toNat 8
  have hblue : (s.color &&& 0x00ffffff).toNat &&& 0x00ff ≤ 255 := Nat.and_le_right
  rw [rgbToBrightness2, Nat.shiftRight_eq_div_pow]
  omega

/-! ## One request -/

/-- The two files of the backlight have this brightness. -/
def BacklightHolds (b : ℤ) (w : Hal) : Prop :=
  w.files .lcd0 = b / 2 ∧ w.files .lcd1 = (b + 1) / 2

def ButtonsHold (b : ℤ) (w : Hal) : Prop := w.files .button = b

theorem writeBacklight_done {b : ℤ} {w : Hal} (h : (writeBacklight env b w).1 = 0) :
    BacklightHolds b (writeBacklight env b w).2 := by
  rcases @writeInt_files env .lcd0 (b / 2) w with ⟨hzero, hfirst⟩ | ⟨hne, -⟩
  · rw [writeBacklight, if_pos hzero] at h ⊢
    rcases @writeInt_files env .lcd1 ((b + 1) / 2) (writeInt env .lcd0 (b / 2) w).2 with
      ⟨-, hsecond⟩ | ⟨hno, -⟩
    · rw [BacklightHolds, hsecond, hfirst]
      exact ⟨rfl, rfl⟩
    · exact absurd h hno
  · rw [writeBacklight, if_neg hne] at h
    exact absurd h hne

theorem writeButtons_done {b : ℤ} {w : Hal} (h : (writeInt env .button b w).1 = 0) :
    ButtonsHold b (writeInt env .button b w).2 := by
  rcases @writeInt_files env .button b w with ⟨-, hfiles⟩ | ⟨hno, -⟩
  · rw [ButtonsHold, hfiles]
    exact Function.update_self ..
  · exact absurd h hno

/-- The brightness that is remembered is that of the last request, and if that
one returned 0 it is in the files. -/
inductive Remembered (brightness : LightState → ℕ) (hold : ℤ → Hal → Prop) (w : Hal) :
    ℤ → Option (LightState × ℤ) → Prop
  | nothing : Remembered brightness hold w (-1) none
  | last {s : LightState} {rc : ℤ} : (rc = 0 → hold (brightness s) w) →
      Remembered brightness hold w (brightness s) (some (s, rc))

/-- The last request returned 0, or was for another brightness. -/
def Fresh (brightness : LightState → ℕ) (s : LightState) (last : Option (LightState × ℤ)) : Prop :=
  ∀ s' rc, last = some (s', rc) → rc = 0 ∨ brightness s ≠ brightness s'

/-- A request that is no repetition of one that failed is done if it
returns 0. -/
theorem unlessSame_done {brightness : LightState → ℕ} {hold : ℤ → Hal → Prop} {w : Hal} {old : ℤ}
    {last : Option (LightState × ℤ)} {s : LightState} {write : Hal → ℤ × Hal}
    (hrem : Remembered brightness hold w old last) (hfresh : Fresh brightness s last)
    (hwrite : (write w).1 = 0 → hold (brightness s) (write w).2)
    (hzero : (unlessSame old (brightness s) write w).1 = 0) :
    hold (brightness s) (unlessSame old (brightness s) write w).2 := by
  unfold unlessSame at hzero ⊢
  split at hzero
  · next hdo =>
      rw [if_pos hdo]
      exact hwrite hzero
  · next hskip =>
      rw [if_neg hskip]
      rw [not_or, not_not] at hskip
      cases hrem with
      | nothing => exact absurd (by decide) hskip.1
      | @last s' rc hdone =>
          have hsame : brightness s' = brightness s := by exact_mod_cast hskip.2
          rcases hfresh s' rc rfl with hrc | hne
          · rw [← hsame]
            exact hdone hrc
          · exact absurd hsame.symm hne

/-! ## Runs -/

/-- A request for the backlight or the buttons does not repeat one that
failed. -/
def NoRepeat (w : Hal) (c : Call) : Prop :=
  match c.light with
  | .backlight => Fresh rgbToBrightness2 c.state w.lastBacklight
  | .buttons => Fresh rgbToBrightness c.state w.lastButtons
  | _ => True

def IsByte (z : ℤ) : Prop := 0 ≤ z ∧ z ≤ 255

theorem BacklightHolds.isByte {b : ℕ} {w : Hal} (h : BacklightHolds b w) (hb : b ≤ 510) :
    IsByte (w.files .lcd0) ∧ IsByte (w.files .lcd1) := by
  rw [IsByte, IsByte, h.1, h.2]
  omega

/-- If the request returned 0, the files have what was asked for. -/
def Done (c : Call) (r : ℤ × Hal) : Prop :=
  match c.light with
  | .backlight => r.1 = 0 →
      BacklightHolds (rgbToBrightness2 c.state) r.2 ∧
        IsByte (r.2.files .lcd0) ∧ IsByte (r.2.files .lcd1)
  | .buttons => r.1 = 0 → ButtonsHold (rgbToBrightness c.state) r.2
  | _ => True

theorem Remembered.mono {brightness : LightState → ℕ} {hold : ℤ → Hal → Prop} {w w' : Hal} {old : ℤ}
    {last : Option (LightState × ℤ)} (h : Remembered brightness hold w old last)
    (hhold : ∀ b, hold b w → hold b w') : Remembered brightness hold w' old last := by
  cases h with
  | nothing => exact .nothing
  | last hdone => exact .last fun hrc => hhold _ (hdone hrc)

structure Cached (w : Hal) : Prop where
  backlight : Remembered rgbToBrightness2 BacklightHolds w w.oldBacklight w.lastBacklight
  buttons : Remembered rgbToBrightness ButtonsHold w w.oldButtons w.lastButtons

/-- Nothing of the backlight is different. -/
structure SameBacklight (w w' : Hal) : Prop where
  old : w'.oldBacklight = w.oldBacklight
  last : w'.lastBacklight = w.lastBacklight
  lcd0 : w'.files .lcd0 = w.files .lcd0
  lcd1 : w'.files .lcd1 = w.files .lcd1

/-- Nothing of the buttons is different. -/
structure SameButtons (w w' : Hal) : Prop where
  old : w'.oldButtons = w.oldButtons
  last : w'.lastButtons = w.lastButtons
  button : w'.files .button = w.files .button

theorem SameBacklight.trans {w w' w'' : Hal} (h : SameBacklight w w') (h' : SameBacklight w' w'') :
    SameBacklight w w'' :=
  ⟨h'.old.trans h.old, h'.last.trans h.last, h'.lcd0.trans h.lcd0, h'.lcd1.trans h.lcd1⟩

theorem SameButtons.trans {w w' w'' : Hal} (h : SameButtons w w') (h' : SameButtons w' w'') :
    SameButtons w w'' :=
  ⟨h'.old.trans h.old, h'.last.trans h.last, h'.button.trans h.button⟩

theorem writeInt_sameBacklight {f : File} (hf : f ≠ .lcd0 ∧ f ≠ .lcd1) (value : ℤ) (w : Hal) :
    SameBacklight w (writeInt env f value w).2 :=
  ⟨(writeInt_vars ..).oldBacklight, (writeInt_vars ..).lastBacklight,
    writeInt_files_other hf.1.symm value w, writeInt_files_other hf.2.symm value w⟩

theorem writeInt_sameButtons {f : File} (hf : f ≠ .button) (value : ℤ) (w : Hal) :
    SameButtons w (writeInt env f value w).2 :=
  ⟨(writeInt_vars ..).oldButtons, (writeInt_vars ..).lastButtons,
    writeInt_files_other hf.symm value w⟩

theorem writeBacklight_sameButtons (b : ℤ) (w : Hal) :
    SameButtons w (writeBacklight env b w).2 := by
  have hfirst := @writeInt_sameButtons env .lcd0 (by decide) (b / 2) w
  rw [writeBacklight]
  split
  · exact hfirst.trans (writeInt_sameButtons (by decide) ..)
  · exact hfirst

/-- What the LED does is of no concern to the other two. -/
def SameBrightness (w w' : Hal) : Prop := SameBacklight w w' ∧ SameButtons w w'

theorem SameBrightness.trans {w w' w'' : Hal} (h : SameBrightness w w')
    (h' : SameBrightness w' w'') : SameBrightness w w'' :=
  ⟨h.1.trans h'.1, h.2.trans h'.2⟩

theorem writeLed_sameBrightness (red green blue : ℤ) (w : Hal) :
    SameBrightness w (writeLed env red green blue w).2 := by
  have hwrite : ∀ {f} {v : ℤ} {w : Hal}, f ∉ [File.lcd0, .lcd1, .button] →
      SameBrightness w (writeInt env f v w).2 := by
    intro f v w hf
    simp only [List.mem_cons, not_or] at hf
    exact ⟨writeInt_sameBacklight ⟨hf.1, hf.2.1⟩ v w, writeInt_sameButtons hf.2.2.1 v w⟩
  exact (((hwrite (by decide)).trans (hwrite (by decide))).trans (hwrite (by decide))).trans
    (hwrite (by decide))

theorem setSpeakerLight_sameBrightness (s : LightState) (w : Hal) :
    SameBrightness w (setSpeakerLightLocked env s w).2 := by
  have hset : SameBrightness w { w with speakerLight := s } :=
    ⟨⟨rfl, rfl, rfl, rfl⟩, rfl, rfl, rfl⟩
  rw [setSpeakerLightLocked]
  split
  · exact ⟨⟨rfl, rfl, rfl, rfl⟩, rfl, rfl, rfl⟩
  · dsimp only
    split
    · exact (hset.trans (writeLed_sameBrightness ..)).trans (writeLed_sameBrightness ..)
    · exact hset.trans (writeLed_sameBrightness ..)

theorem updateSpeakerLight_sameBrightness (w : Hal) :
    SameBrightness w (updateSpeakerLightLocked env w).2 := by
  rw [updateSpeakerLightLocked]
  split
  · exact setSpeakerLight_sameBrightness ..
  · split <;> exact setSpeakerLight_sameBrightness ..

theorem SameBacklight.remembered {w w' : Hal} (h : SameBacklight w w') (hw : Cached w) :
    Remembered rgbToBrightness2 BacklightHolds w' w'.oldBacklight w'.lastBacklight := by
  rw [h.old, h.last]
  refine hw.backlight.mono fun b hb => ?_
  rw [BacklightHolds, h.lcd0, h.lcd1]
  exact hb

theorem SameButtons.remembered {w w' : Hal} (h : SameButtons w w') (hw : Cached w) :
    Remembered rgbToBrightness ButtonsHold w' w'.oldButtons w'.lastButtons := by
  rw [h.old, h.last]
  refine hw.buttons.mono fun b hb => ?_
  rw [ButtonsHold, h.button]
  exact hb

theorem setLightBacklight_done {w : Hal} (h : Cached w) {s : LightState}
    (hfresh : Fresh rgbToBrightness2 s w.lastBacklight) :
    Cached (setLightBacklight env s w).2 ∧
      ((setLightBacklight env s w).1 = 0 →
        BacklightHolds (rgbToBrightness2 s) (setLightBacklight env s w).2) := by
  have hdone := unlessSame_done h.backlight hfresh
    (@writeBacklight_done env (rgbToBrightness2 s) w)
  have hsame : SameButtons w (unlessSame w.oldBacklight (rgbToBrightness2 s)
      (writeBacklight env (rgbToBrightness2 s)) w).2 :=
    unlessSame_meets (writeBacklight_sameButtons ..) ⟨rfl, rfl, rfl⟩
  have hother : SameButtons w (setLightBacklight env s w).2 := ⟨hsame.old, hsame.last, hsame.button⟩
  exact ⟨⟨.last hdone, hother.remembered h⟩, hdone⟩

theorem setLightButtons_done {w : Hal} (h : Cached w) {s : LightState}
    (hfresh : Fresh rgbToBrightness s w.lastButtons) :
    Cached (setLightButtons env s w).2 ∧
      ((setLightButtons env s w).1 = 0 →
        ButtonsHold (rgbToBrightness s) (setLightButtons env s w).2) := by
  have hdone := unlessSame_done h.buttons hfresh
    (@writeButtons_done env (rgbToBrightness s) w)
  have hsame : SameBacklight w (unlessSame w.oldButtons (rgbToBrightness s)
      (writeInt env .button (rgbToBrightness s)) w).2 :=
    unlessSame_meets (writeInt_sameBacklight (by decide) ..) ⟨rfl, rfl, rfl, rfl⟩
  have hother : SameBacklight w (setLightButtons env s w).2 :=
    ⟨hsame.old, hsame.last, hsame.lcd0, hsame.lcd1⟩
  exact ⟨⟨hother.remembered h, .last hdone⟩, hdone⟩

theorem setLight_done {w : Hal} (h : Cached w) {c : Call} (hok : NoRepeat w c) :
    Cached (setLight env c w).2 ∧ Done c (setLight env c w) := by
  obtain ⟨light, s⟩ := c
  have hother : ∀ w' : Hal, SameBrightness w w' →
      Cached (updateSpeakerLightLocked env w').2 := by
    intro w' hw'
    have hall := hw'.trans (@updateSpeakerLight_sameBrightness env w')
    exact ⟨hall.1.remembered h, hall.2.remembered h⟩
  cases light with
  | backlight =>
      obtain ⟨hcached, hdone⟩ := @setLightBacklight_done env w h s hok
      refine ⟨hcached, fun hzero => ⟨hdone hzero, ?_, ?_⟩⟩
      · exact ((hdone hzero).isByte (rgbToBrightness2_le s)).1
      · exact ((hdone hzero).isByte (rgbToBrightness2_le s)).2
  | buttons => exact setLightButtons_done h hok
  | attention => exact ⟨hother _ ⟨⟨rfl, rfl, rfl, rfl⟩, rfl, rfl, rfl⟩, trivial⟩
  | notifications => exact ⟨hother _ ⟨⟨rfl, rfl, rfl, rfl⟩, rfl, rfl, rfl⟩, trivial⟩
  | battery => exact ⟨hother _ ⟨⟨rfl, rfl, rfl, rfl⟩, rfl, rfl, rfl⟩, trivial⟩

/-- After any requests of which none repeats one that failed, the next one, if
it does not either, is done when it returns 0. -/
theorem brightness_done {files : File → ℤ} {calls : List Call} {w : Hal} {c : Call}
    (hrun : Run (step env) NoRepeat (Hal.load files) calls w) (hok : NoRepeat w c) :
    Done c (setLight env c w) := by
  have hcached : Cached w := by
    refine hrun.invariant (I := Cached) ⟨.nothing, .nothing⟩ ?_
    intro w₁ c₁ _ h₁ hok₁ hstep
    cases hstep
    exact (setLight_done h₁ hok₁).1
  exact (setLight_done hcached hok).2

/-- The first attempt to write fails. -/
def firstFails : Env := fun n => if n = 0 then some ⟨5, by decide⟩ else none

def white : LightState := ⟨0xffffffff⟩
def gray : LightState := ⟨0xff808080⟩

/-- The backlight cannot be set to white, and then it is set to gray. -/
theorem brightness_done_gray :
    ∃ w, Run (step firstFails) NoRepeat (Hal.load fun _ => 0) [⟨.backlight, white⟩] w ∧
      (setLight firstFails ⟨.backlight, gray⟩ w).1 = 0 ∧
      Done ⟨.backlight, gray⟩ (setLight firstFails ⟨.backlight, gray⟩ w) := by
  have hfresh : Fresh rgbToBrightness2 white none :=
    fun _ _ hno => absurd hno.symm (Option.some_ne_none _)
  have hrun : Run (step firstFails) NoRepeat (Hal.load fun _ => 0) [⟨.backlight, white⟩] _ :=
    .snoc .nil hfresh rfl
  have hnext : Fresh rgbToBrightness2 gray (some (white, -5)) := by
    intro _ _ hlast
    cases hlast
    exact .inr (by decide)
  exact ⟨_, hrun, by decide, brightness_done hrun hnext⟩

/-- It is asked for white again: the result is 0, and the files are as they
were. -/
theorem repeated_backlight_not_written :
    ∃ w, Run (step firstFails) always (Hal.load fun _ => 0) [⟨.backlight, white⟩] w ∧
      (setLight firstFails ⟨.backlight, white⟩ w).1 = 0 ∧
      (setLight firstFails ⟨.backlight, white⟩ w).2.files .lcd0 = 0 ∧
      ¬ Done ⟨.backlight, white⟩ (setLight firstFails ⟨.backlight, white⟩ w) := by
  refine ⟨_, .snoc .nil trivial rfl, by decide, by decide, fun hdone => ?_⟩
  have hholds := (hdone (by decide)).1.1
  exact absurd hholds (by decide)

end Pisces.Lights
