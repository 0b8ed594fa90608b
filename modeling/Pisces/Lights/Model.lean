import Mathlib.Data.List.Basic
import Pisces.Lib.Bits
import Pisces.Lib.Runs

/-!
# The lights

The lights HAL writes numbers to files of sysfs: two for the backlight of the
screen, one for the buttons, and for the notification LED one for each colour
and one that makes the three take effect. Each function remembers what it did
last, and writes nothing when it is asked for the same again.

Any write may fail; which do is a parameter. A file has what was written to it
last, and the LED shows what its three colours were when the update file was
written last.
-/

namespace Pisces.Lights

open Pisces.Lib

/-- A request; the other fields of it are only logged. -/
structure LightState where
  color : BitVec 32
  deriving DecidableEq

inductive File where
  | lcd0
  | lcd1
  | button
  | ledRed
  | ledGreen
  | ledBlue
  | ledUpdate
  deriving DecidableEq

/-- The static variables, and the files. `latches` has the colours the LED has
shown, the last one first, and `writes` counts the attempts to write. As history
there are the last requests for the backlight and for the buttons, with their
results. -/
structure Hal where
  attention : LightState
  notification : LightState
  battery : LightState
  speakerLight : LightState
  oldBacklight : ℤ
  oldButtons : ℤ
  files : File → ℤ
  latches : List ℤ
  writes : ℕ
  lastBacklight : Option (LightState × ℤ)
  lastButtons : Option (LightState × ℤ)

/-- The HAL as it is loaded, with the LED off. -/
def Hal.load (files : File → ℤ) : Hal :=
  { attention := ⟨0⟩
    notification := ⟨0⟩
    battery := ⟨0⟩
    speakerLight := ⟨0⟩
    oldBacklight := -1
    oldButtons := -1
    files := files
    latches := [0]
    writes := 0
    lastBacklight := none
    lastButtons := none }

/-- `errno` of the attempts to write that fail, in open or in write. -/
abbrev Env := ℕ → Option { e : ℤ // 0 < e }

/-- The colour of which the three files have a byte each. -/
def ledColor (red green blue : ℤ) : ℤ := red * 65536 + green * 256 + blue

/-- A write that succeeds. -/
def Hal.store (f : File) (value : ℤ) (w : Hal) : Hal :=
  { w with
    files := Function.update w.files f value
    latches :=
      if f = .ledUpdate then
        ledColor (w.files .ledRed) (w.files .ledGreen) (w.files .ledBlue) :: w.latches
      else w.latches }

section

variable (env : Env)

def writeInt (f : File) (value : ℤ) (w : Hal) : ℤ × Hal :=
  let w' := { w with writes := w.writes + 1 }
  match env w.writes with
  | none => (0, w'.store f value)
  | some e => (-e.val, w')

def isLit (s : LightState) : Bool := s.color &&& 0x00ffffff ≠ 0

def rgbToBrightness (s : LightState) : ℕ :=
  let color := (s.color &&& 0x00ffffff).toNat
  (77 * ((color >>> 16) &&& 0x00ff) + 150 * ((color >>> 8) &&& 0x00ff) +
    29 * (color &&& 0x00ff)) >>> 8

def rgbToBrightness2 (s : LightState) : ℕ :=
  let color := (s.color &&& 0x00ffffff).toNat
  (2 * 77 * ((color >>> 16) &&& 0x00ff) + 2 * 150 * ((color >>> 8) &&& 0x00ff) +
    2 * 29 * (color &&& 0x00ff)) >>> 8

/-- Writes, unless the brightness is the one of the last time. -/
def unlessSame (old brightness : ℤ) (write : Hal → ℤ × Hal) (w : Hal) : ℤ × Hal :=
  if old < 0 ∨ old ≠ brightness then write w else (0, w)

def writeBacklight (brightness : ℤ) (w : Hal) : ℤ × Hal :=
  let first := writeInt env .lcd0 (brightness / 2) w
  if first.1 = 0 then writeInt env .lcd1 ((brightness + 1) / 2) first.2 else first

def setLightBacklight (s : LightState) (w : Hal) : ℤ × Hal :=
  let brightness := rgbToBrightness2 s
  let r := unlessSame w.oldBacklight brightness (writeBacklight env brightness) w
  (r.1, { r.2 with oldBacklight := brightness, lastBacklight := some (s, r.1) })

def setLightButtons (s : LightState) (w : Hal) : ℤ × Hal :=
  let brightness := rgbToBrightness s
  let r := unlessSame w.oldButtons brightness (writeInt env .button brightness) w
  (r.1, { r.2 with oldButtons := brightness, lastButtons := some (s, r.1) })

/-- The three colours, and then the update; nobody looks at the first results. -/
def writeLed (red green blue : ℤ) (w : Hal) : ℤ × Hal :=
  let w := (writeInt env .ledRed red w).2
  let w := (writeInt env .ledGreen green w).2
  let w := (writeInt env .ledBlue blue w).2
  writeInt env .ledUpdate 1 w

def setSpeakerLightLocked (s : LightState) (w : Hal) : ℤ × Hal :=
  if w.speakerLight.color = s.color then (0, w)
  else
    let w := { w with speakerLight := s }
    -- off before on, to reset the timer
    let w := if isLit s then (writeLed env 0 0 0 w).2 else w
    writeLed env ((s.color >>> 16) &&& 0xFF).toNat ((s.color >>> 8) &&& 0xFF).toNat
      (s.color &&& 0xFF).toNat w

def updateSpeakerLightLocked (w : Hal) : ℤ × Hal :=
  if isLit w.attention then setSpeakerLightLocked env w.attention w
  else if isLit w.notification then setSpeakerLightLocked env w.notification w
  else setSpeakerLightLocked env w.battery w

def setLightAttention (s : LightState) (w : Hal) : ℤ × Hal :=
  updateSpeakerLightLocked env { w with attention := s }

def setLightNotifications (s : LightState) (w : Hal) : ℤ × Hal :=
  updateSpeakerLightLocked env { w with notification := s }

def setLightBattery (s : LightState) (w : Hal) : ℤ × Hal :=
  updateSpeakerLightLocked env { w with battery := s }

end

/-- The lights that `open_lights` knows. -/
inductive Light where
  | backlight
  | buttons
  | attention
  | notifications
  | battery
  deriving DecidableEq

structure Call where
  light : Light
  state : LightState

def setLight (env : Env) (c : Call) : Hal → ℤ × Hal :=
  match c.light with
  | .backlight => setLightBacklight env c.state
  | .buttons => setLightButtons env c.state
  | .attention => setLightAttention env c.state
  | .notifications => setLightNotifications env c.state
  | .battery => setLightBattery env c.state

def step (env : Env) (w : Hal) (c : Call) : Option Hal := some (setLight env c w).2

/-! ## Writing -/

section

variable {env : Env}

/-- What no write changes: the variables. -/
structure SameVars (w w' : Hal) : Prop where
  attention : w'.attention = w.attention
  notification : w'.notification = w.notification
  battery : w'.battery = w.battery
  speakerLight : w'.speakerLight = w.speakerLight
  oldBacklight : w'.oldBacklight = w.oldBacklight
  oldButtons : w'.oldButtons = w.oldButtons
  lastBacklight : w'.lastBacklight = w.lastBacklight
  lastButtons : w'.lastButtons = w.lastButtons

theorem SameVars.refl (w : Hal) : SameVars w w := ⟨rfl, rfl, rfl, rfl, rfl, rfl, rfl, rfl⟩

theorem SameVars.trans {w w' w'' : Hal} (h : SameVars w w') (h' : SameVars w' w'') :
    SameVars w w'' where
  attention := h'.attention.trans h.attention
  notification := h'.notification.trans h.notification
  battery := h'.battery.trans h.battery
  speakerLight := h'.speakerLight.trans h.speakerLight
  oldBacklight := h'.oldBacklight.trans h.oldBacklight
  oldButtons := h'.oldButtons.trans h.oldButtons
  lastBacklight := h'.lastBacklight.trans h.lastBacklight
  lastButtons := h'.lastButtons.trans h.lastButtons

theorem writeInt_vars (f : File) (value : ℤ) (w : Hal) : SameVars w (writeInt env f value w).2 := by
  rw [writeInt]
  cases env w.writes with
  | none => exact ⟨rfl, rfl, rfl, rfl, rfl, rfl, rfl, rfl⟩
  | some e => exact ⟨rfl, rfl, rfl, rfl, rfl, rfl, rfl, rfl⟩

/-- It is done when it returns 0, and only then. -/
theorem writeInt_files (f : File) (value : ℤ) (w : Hal) :
    ((writeInt env f value w).1 = 0 ∧
      (writeInt env f value w).2.files = Function.update w.files f value) ∨
    ((writeInt env f value w).1 ≠ 0 ∧ (writeInt env f value w).2.files = w.files) := by
  rw [writeInt]
  cases env w.writes with
  | none => exact .inl ⟨rfl, rfl⟩
  | some e =>
      have hpos := e.property
      exact .inr ⟨by dsimp only; omega, rfl⟩

theorem writeInt_files_other {f g : File} (hne : g ≠ f) (value : ℤ) (w : Hal) :
    (writeInt env f value w).2.files g = w.files g := by
  rcases @writeInt_files env f value w with ⟨-, hfiles⟩ | ⟨-, hfiles⟩ <;> rw [hfiles]
  exact Function.update_of_ne hne ..

/-- The LED changes with its update file only. -/
theorem writeInt_latches {f : File} (hf : f ≠ .ledUpdate) (value : ℤ) (w : Hal) :
    (writeInt env f value w).2.latches = w.latches := by
  rw [writeInt]
  cases env w.writes with
  | none => exact if_neg hf
  | some e => rfl

theorem writeLed_vars (red green blue : ℤ) (w : Hal) :
    SameVars w (writeLed env red green blue w).2 :=
  (((writeInt_vars _ _ w).trans (writeInt_vars ..)).trans (writeInt_vars ..)).trans
    (writeInt_vars ..)

theorem writeBacklight_vars (brightness : ℤ) (w : Hal) :
    SameVars w (writeBacklight env brightness w).2 := by
  rw [writeBacklight]
  split
  · exact (writeInt_vars ..).trans (writeInt_vars ..)
  · exact writeInt_vars ..

theorem writeBacklight_latches (brightness : ℤ) (w : Hal) :
    (writeBacklight env brightness w).2.latches = w.latches := by
  have hfirst := @writeInt_latches env .lcd0 (by decide) (brightness / 2) w
  rw [writeBacklight]
  split
  · exact (writeInt_latches (by decide) ..).trans hfirst
  · exact hfirst

/-- Whether it writes or not. -/
theorem unlessSame_meets {P : Hal → Prop} {old brightness : ℤ} {write : Hal → ℤ × Hal} {w : Hal}
    (hwrite : P (write w).2) (hsame : P w) : P (unlessSame old brightness write w).2 := by
  unfold unlessSame
  split
  · exact hwrite
  · exact hsame

end

end Pisces.Lights
