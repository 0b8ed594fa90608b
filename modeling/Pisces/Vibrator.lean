import Mathlib.Data.List.Basic
import Pisces.Lib.Runs

/-!
# The vibrator

`sendit` plays an effect, or stops all of them, through a library of function
pointers: libImmVibeJ is loaded when it is first needed, initialised, and a
device of it is opened; when a call fails, everything is closed again, and the
next request starts from the beginning.

What the loader and the library answer is outside. A call through a pointer that
is null is no call at all: it is where the model has no next state.
-/

namespace Pisces.Vibrator

open Pisces.Lib

/-! ## The model -/

abbrev VibeInt32 := Int32
abbrev VibeStatus := Int32

def vibeSSuccess : VibeStatus := 0
def vibeENotInitialized : VibeStatus := -2
def vibeInvalidDeviceHandleValue : VibeInt32 := -1
def vibeStyleStrong : VibeInt32 := 1
def vibeGalaxysVersionNumber : VibeInt32 := 0x0307010A

def vibeFailed (n : VibeStatus) : Bool := n < 0

def isValidDeviceHandle (n : VibeInt32) : Bool := n ≠ 0 && n ≠ vibeInvalidDeviceHandleValue

/-- The functions of the library, in the order in which they are loaded. -/
inductive Symbol where
  | immVibeInitialize
  | immVibeTerminate
  | immVibeOpenDevice
  | immVibeCloseDevice
  | immVibePlayMagSweepEffect
  | immVibeStopAllPlayingEffects
  deriving DecidableEq

def Symbol.all : List Symbol :=
  [.immVibeInitialize, .immVibeTerminate, .immVibeOpenDevice, .immVibeCloseDevice,
    .immVibePlayMagSweepEffect, .immVibeStopAllPlayingEffects]

/-- A call of the library with its arguments and, where somebody looks at it,
the status it gave. -/
inductive Call where
  | immVibeInitialize (version : VibeInt32) (vs : VibeStatus)
  | immVibeTerminate
  | immVibeOpenDevice (index : VibeInt32) (vs : VibeStatus) (handle : VibeInt32)
  | immVibeCloseDevice (handle : VibeInt32)
  | immVibePlayMagSweepEffect (handle duration magnitude style attackTime attackLevel fadeTime
      fadeLevel : VibeInt32) (vs : VibeStatus)
  | immVibeStopAllPlayingEffects (handle : VibeInt32) (vs : VibeStatus)
  deriving DecidableEq

/-- The static variables: which function pointers are set, the device and the
flag. As history, the calls so far. -/
structure Hal where
  symbols : Symbol → Bool
  devHandle : VibeInt32
  immVibeInitialized : Bool
  calls : List Call

/-- The variables before the first request. -/
def Hal.load : Hal :=
  { symbols := fun _ => false
    devHandle := vibeInvalidDeviceHandleValue
    immVibeInitialized := false
    calls := [] }

/-- What a request meets: whether the library and each symbol are found, the
status of each call (none is made twice for one request), what OpenDevice leaves
in the device handle, and persist.vibrator_intensity. -/
structure Outcomes where
  dlopen : Bool
  dlsym : Symbol → Bool
  status : Symbol → VibeStatus
  handle : VibeInt32
  intensity : VibeInt32

section

variable (o : Outcomes)

/-- Calls through the pointer `s`. -/
def Hal.call (s : Symbol) (c : Call) (w : Hal) : Option Hal :=
  if w.symbols s then some { w with calls := w.calls ++ [c] } else none

/-- Loads the symbols one by one, up to the first that is not found. -/
def loadSymbols : List Symbol → Hal → Hal × Bool
  | [], w => (w, true)
  | s :: ss, w =>
      let w' := { w with symbols := Function.update w.symbols s (o.dlsym s) }
      if o.dlsym s then loadSymbols ss w' else (w', false)

def clearSymbols (w : Hal) : Hal := { w with symbols := fun _ => false }

def libImmVibeJInit (w : Hal) : Hal :=
  if !o.dlopen then clearSymbols w
  else
    match loadSymbols o Symbol.all w with
    | (w', true) => w'
    | (w', false) => clearSymbols w'

def vibrateTerminate (w : Hal) : Option Hal := do
  let w ← if isValidDeviceHandle w.devHandle then do
      let w' ← w.call .immVibeCloseDevice (.immVibeCloseDevice w.devHandle)
      pure { w' with devHandle := vibeInvalidDeviceHandleValue }
    else pure w
  if w.immVibeInitialized then do
    let w' ← w.call .immVibeTerminate .immVibeTerminate
    pure { w' with immVibeInitialized := false }
  else pure w

/-- `vibrate_init` from the point where the device is to be open; `vs` is the
status so far. -/
def openDevice (vs : VibeStatus) (w : Hal) : Option (VibeStatus × Hal) :=
  if !isValidDeviceHandle w.devHandle then do
    let vs := o.status .immVibeOpenDevice
    let w ← w.call .immVibeOpenDevice (.immVibeOpenDevice 0 vs o.handle)
    let w := { w with devHandle := o.handle }
    if vibeFailed vs then do
      let w ← vibrateTerminate w
      pure (vs, w)
    else pure (vs, w)
  else pure (vs, w)

def vibrateInit (w : Hal) : Option (VibeStatus × Hal) :=
  let w := if !w.symbols .immVibeInitialize then libImmVibeJInit o w else w
  if !w.symbols .immVibeInitialize then pure (vibeENotInitialized, w)
  else if !w.immVibeInitialized then do
    let vs := o.status .immVibeInitialize
    let w ← w.call .immVibeInitialize (.immVibeInitialize vibeGalaxysVersionNumber vs)
    if vibeFailed vs then pure (vs, w)
    else openDevice o vs { w with immVibeInitialized := true }
  else openDevice o vibeSSuccess w

/-- What `vibrate_on` and `vibrate_off` do after their call. -/
def afterEffect (vs : VibeStatus) (w : Hal) : Option (VibeStatus × Hal) :=
  if vibeFailed vs then do
    let w ← vibrateTerminate w
    pure (vs, w)
  else pure (vs, w)

def vibrateOn (duration : VibeInt32) (w : Hal) : Option (VibeStatus × Hal) := do
  let vs := o.status .immVibePlayMagSweepEffect
  let w ← w.call .immVibePlayMagSweepEffect
    (.immVibePlayMagSweepEffect w.devHandle duration o.intensity vibeStyleStrong 0 0 0 0 vs)
  afterEffect vs w

def vibrateOff (w : Hal) : Option (VibeStatus × Hal) := do
  let vs := o.status .immVibeStopAllPlayingEffects
  let w ← w.call .immVibeStopAllPlayingEffects (.immVibeStopAllPlayingEffects w.devHandle vs)
  afterEffect vs w

def sendit (timeoutMs : Int32) (w : Hal) : Option (Int32 × Hal) := do
  let (vs, w) ← vibrateInit o w
  if vibeFailed vs then pure (-1, w)
  else do
    let (vs, w) ← if timeoutMs ≠ 0 then vibrateOn o timeoutMs w else vibrateOff o w
    pure (if vibeFailed vs then 0 else -1, w)

end

structure Request where
  timeoutMs : Int32
  outcomes : Outcomes

def step (w : Hal) (r : Request) : Option Hal := (sendit r.outcomes r.timeoutMs w).map Prod.snd

/-! ## What a request does -/

section Steps

variable {o : Outcomes} {w : Hal}

/-- Every symbol is found. -/
def Outcomes.Loads (o : Outcomes) : Prop := o.dlopen = true ∧ ∀ s, o.dlsym s = true

def Hal.Loaded (w : Hal) : Prop := ∀ s, w.symbols s = true

/-- All pointers are set, or none is, and then nothing of the library is in
use. -/
def Hal.Safe (w : Hal) : Prop :=
  w.Loaded ∨ (∀ s, w.symbols s = false) ∧ w.immVibeInitialized = false ∧
    isValidDeviceHandle w.devHandle = false

theorem call_loaded (h : w.Loaded) (s : Symbol) (c : Call) :
    w.call s c = some { w with calls := w.calls ++ [c] } := by
  rw [Hal.call, h s]
  rfl

/-- Loading changes pointers only, and if all of `ss` are found these are set. -/
theorem loadSymbols_eq (ss : List Symbol) (w : Hal) :
    ∃ f, loadSymbols o ss w = ({ w with symbols := f }, ss.all o.dlsym) ∧
      (ss.all o.dlsym = true → ∀ s, s ∈ ss ∨ w.symbols s = true → f s = true) := by
  induction ss generalizing w with
  | nil => exact ⟨w.symbols, rfl, fun _ s hs => hs.resolve_left List.not_mem_nil⟩
  | cons s ss ih =>
      rw [loadSymbols]
      cases hs : o.dlsym s with
      | false =>
          refine ⟨Function.update w.symbols s false, ?_, fun hall => ?_⟩
          · rw [List.all_cons, hs, Bool.false_and]
            rfl
          · rw [List.all_cons, hs] at hall
            cases hall
      | true =>
          obtain ⟨f, heq, hf⟩ := ih { w with symbols := Function.update w.symbols s true }
          refine ⟨f, ?_, fun hall x hx => hf ?_ x ?_⟩
          · rw [List.all_cons, hs, Bool.true_and]
            exact heq
          · rwa [List.all_cons, hs, Bool.true_and] at hall
          · by_cases hxs : x = s
            · right
              rw [hxs]
              exact Function.update_self ..
            · rcases hx with hx | hx
              · exact .inl ((List.mem_cons.mp hx).resolve_left hxs)
              · right
                rw [← hx]
                exact Function.update_of_ne hxs ..

theorem libImmVibeJInit_loads (h : o.Loads) (w : Hal) :
    libImmVibeJInit o w = { w with symbols := fun _ => true } := by
  obtain ⟨f, heq, hf⟩ := @loadSymbols_eq o Symbol.all w
  have hall : Symbol.all.all o.dlsym = true := List.all_eq_true.mpr fun s _ => h.2 s
  have htrue : f = fun _ => true := by
    funext s
    exact hf hall s (.inl (by cases s <;> decide))
  rw [libImmVibeJInit, h.1, heq, hall, htrue]
  rfl

theorem libImmVibeJInit_fails (h : ¬ o.Loads) (w : Hal) :
    libImmVibeJInit o w = clearSymbols w := by
  rw [libImmVibeJInit]
  cases hopen : o.dlopen with
  | false => rfl
  | true =>
      obtain ⟨f, heq, -⟩ := @loadSymbols_eq o Symbol.all w
      have hall : Symbol.all.all o.dlsym = false := by
        rw [Bool.eq_false_iff]
        intro hall
        refine h ⟨hopen, fun s => List.all_eq_true.mp hall s ?_⟩
        cases s <;> decide
      rw [heq, hall]
      rfl

/-- The calls of `vibrate_terminate`. -/
def Hal.closing (w : Hal) : List Call :=
  (if isValidDeviceHandle w.devHandle then [.immVibeCloseDevice w.devHandle] else []) ++
    if w.immVibeInitialized then [.immVibeTerminate] else []

theorem vibrateTerminate_eq (h : w.Loaded) :
    ∃ w', vibrateTerminate w = some w' ∧ w'.Loaded ∧ w'.immVibeInitialized = false ∧
      isValidDeviceHandle w'.devHandle = false ∧ w'.calls = w.calls ++ w.closing := by
  rw [vibrateTerminate, Hal.closing]
  cases hv : isValidDeviceHandle w.devHandle <;> cases hi : w.immVibeInitialized
  · refine ⟨w, ?_, h, hi, hv, (List.append_nil _).symm⟩
    simp [hi]
  · refine ⟨{ w with immVibeInitialized := false, calls := w.calls ++ [.immVibeTerminate] }, ?_,
      h, rfl, hv, rfl⟩
    simp [hi, call_loaded h]
  · refine ⟨{ w with devHandle := -1, calls := w.calls ++ [.immVibeCloseDevice w.devHandle] }, ?_,
      h, hi, rfl, rfl⟩
    simp [hi, call_loaded h, vibeInvalidDeviceHandleValue]
  · refine ⟨{ w with
        devHandle := -1
        immVibeInitialized := false
        calls := w.calls ++ [.immVibeCloseDevice w.devHandle, .immVibeTerminate] }, ?_,
      h, rfl, rfl, rfl⟩
    have hmid : Hal.Loaded { w with
        devHandle := -1
        immVibeInitialized := true
        calls := w.calls ++ [.immVibeCloseDevice w.devHandle] } := h
    simp [hi, call_loaded h, call_loaded hmid, vibeInvalidDeviceHandleValue]

/-- The call that `vibrate_init` makes if the library is not initialised. -/
def Hal.starting (o : Outcomes) (w : Hal) : List Call :=
  if w.immVibeInitialized then []
  else [.immVibeInitialize vibeGalaxysVersionNumber (o.status .immVibeInitialize)]

/-- The library is initialised already, or can be. -/
def Hal.Starts (o : Outcomes) (w : Hal) : Prop :=
  w.immVibeInitialized = true ∨ vibeFailed (o.status .immVibeInitialize) = false

/-- The ways through `vibrate_init`. -/
inductive InitStep (o : Outcomes) (w : Hal) : VibeStatus → Hal → Prop
  | missing : ¬ w.Loaded → ¬ o.Loads → InitStep o w vibeENotInitialized (clearSymbols w)
  | fails {w'} : w.Loaded ∨ o.Loads → w.immVibeInitialized = false →
      vibeFailed (o.status .immVibeInitialize) = true → w'.Loaded →
      w'.immVibeInitialized = false → w'.devHandle = w.devHandle →
      w'.calls = w.calls ++ w.starting o → InitStep o w (o.status .immVibeInitialize) w'
  | noDevice {w'} : w.Loaded ∨ o.Loads → w.Starts o → isValidDeviceHandle w.devHandle = false →
      vibeFailed (o.status .immVibeOpenDevice) = true → w'.Loaded →
      w'.immVibeInitialized = false → isValidDeviceHandle w'.devHandle = false →
      w'.calls = w.calls ++
        (w.starting o ++ .immVibeOpenDevice 0 (o.status .immVibeOpenDevice) o.handle ::
          ((if isValidDeviceHandle o.handle then [.immVibeCloseDevice o.handle] else []) ++
            [.immVibeTerminate])) →
      InitStep o w (o.status .immVibeOpenDevice) w'
  | opened {w'} : w.Loaded ∨ o.Loads → w.Starts o → isValidDeviceHandle w.devHandle = false →
      vibeFailed (o.status .immVibeOpenDevice) = false → w'.Loaded →
      w'.immVibeInitialized = true → w'.devHandle = o.handle →
      w'.calls = w.calls ++
        (w.starting o ++ [.immVibeOpenDevice 0 (o.status .immVibeOpenDevice) o.handle]) →
      InitStep o w (o.status .immVibeOpenDevice) w'
  | open {vs w'} : w.Loaded ∨ o.Loads → w.Starts o → isValidDeviceHandle w.devHandle = true →
      vibeFailed vs = false → w'.Loaded → w'.immVibeInitialized = true →
      w'.devHandle = w.devHandle → w'.calls = w.calls ++ w.starting o → InitStep o w vs w'

/-- From the point where the library is initialised, as `w₁`. -/
theorem openDevice_steps {vs : VibeStatus} {w₁ : Hal} (hload : w.Loaded ∨ o.Loads)
    (hstarts : w.Starts o) (hvs : vibeFailed vs = false) (h : w₁.Loaded)
    (hinit : w₁.immVibeInitialized = true) (hdev : w₁.devHandle = w.devHandle)
    (hcalls : w₁.calls = w.calls ++ w.starting o) :
    ∃ vs' w', openDevice o vs w₁ = some (vs', w') ∧ InitStep o w vs' w' := by
  rw [openDevice, hdev]
  cases hv : isValidDeviceHandle w.devHandle with
  | true => exact ⟨vs, w₁, rfl, .open hload hstarts hv hvs h hinit hdev hcalls⟩
  | false =>
      simp only [Bool.not_false, if_true, call_loaded h, Option.bind_eq_bind, Option.bind_some]
      cases hfail : vibeFailed (o.status .immVibeOpenDevice) with
      | true =>
          have hmid : Hal.Loaded { w₁ with
            devHandle := o.handle
            calls := w₁.calls ++
              [.immVibeOpenDevice 0 (o.status .immVibeOpenDevice) o.handle] } := h
          obtain ⟨w', heq, hw', hini', hdev', hcalls'⟩ := vibrateTerminate_eq hmid
          refine ⟨_, w', ?_, .noDevice hload hstarts hv hfail hw' hini' hdev' ?_⟩
          · simp only [if_true, heq]
            rfl
          · rw [hcalls', Hal.closing, hinit, hcalls]
            simp only [List.append_assoc, if_true, List.cons_append, List.nil_append]
      | false =>
          refine ⟨_, _, rfl, .opened hload hstarts hv hfail h hinit rfl ?_⟩
          rw [hcalls, List.append_assoc]

theorem vibrateInit_steps (h : w.Safe) :
    ∃ vs w', vibrateInit o w = some (vs, w') ∧ InitStep o w vs w' := by
  -- the state once the library is there
  have hloaded : ∀ w₁ : Hal, w₁ = { w with symbols := fun _ => true } → w.Loaded ∨ o.Loads →
      (if !w.symbols .immVibeInitialize then libImmVibeJInit o w else w) = w₁ →
      ∃ vs w', vibrateInit o w = some (vs, w') ∧ InitStep o w vs w' := by
    rintro w₁ hw₁ hload heq
    have h₁ : w₁.Loaded := by
      rw [hw₁]
      exact fun _ => rfl
    rw [vibrateInit, heq, h₁ .immVibeInitialize]
    cases hi : w.immVibeInitialized with
    | true =>
        have hi₁ : w₁.immVibeInitialized = true := by rw [hw₁]; exact hi
        simp only [hi₁]
        refine openDevice_steps hload (.inl hi) (by decide) h₁ hi₁ (by rw [hw₁]) ?_
        rw [hw₁, Hal.starting, hi]
        exact (List.append_nil _).symm
    | false =>
        have hi₁ : w₁.immVibeInitialized = false := by rw [hw₁]; exact hi
        simp only [hi₁, Bool.not_true, Bool.not_false, if_true, call_loaded h₁,
          Option.bind_eq_bind, Option.bind_some, Bool.false_eq_true, if_false]
        have hcalls : w₁.calls ++ [.immVibeInitialize vibeGalaxysVersionNumber
            (o.status .immVibeInitialize)] = w.calls ++ w.starting o := by
          rw [hw₁, Hal.starting, hi]
          rfl
        cases hfail : vibeFailed (o.status .immVibeInitialize) with
        | true =>
            refine ⟨_, _, rfl, .fails hload hi hfail h₁ rfl ?_ hcalls⟩
            rw [hw₁]
        | false =>
            refine openDevice_steps hload (.inr hfail) hfail h₁ rfl ?_ hcalls
            rw [hw₁]
  rcases h with h | ⟨hnone, hi, hv⟩
  · refine hloaded w ?_ (.inl h) (by rw [h]; rfl)
    rw [← funext h]
  · by_cases hl : o.Loads
    · refine hloaded _ rfl (.inr hl) ?_
      rw [hnone, libImmVibeJInit_loads hl]
      rfl
    · have hnot : ¬ w.Loaded := by
        intro hw
        have htrue := hw .immVibeInitialize
        rw [hnone] at htrue
        cases htrue
      refine ⟨_, _, ?_, .missing hnot hl⟩
      rw [vibrateInit, hnone, libImmVibeJInit_fails hl]
      rfl

/-- The call that a request makes when everything is open. -/
def Hal.effect (o : Outcomes) (timeoutMs : Int32) (w : Hal) : Call :=
  if timeoutMs ≠ 0 then
    .immVibePlayMagSweepEffect w.devHandle timeoutMs o.intensity vibeStyleStrong 0 0 0 0
      (o.status .immVibePlayMagSweepEffect)
  else .immVibeStopAllPlayingEffects w.devHandle (o.status .immVibeStopAllPlayingEffects)

def Outcomes.effectStatus (o : Outcomes) (timeoutMs : Int32) : VibeStatus :=
  o.status (if timeoutMs ≠ 0 then .immVibePlayMagSweepEffect else .immVibeStopAllPlayingEffects)

theorem effect_eq (h : w.Loaded) (timeoutMs : Int32) :
    (if timeoutMs ≠ 0 then vibrateOn o timeoutMs w else vibrateOff o w) =
      afterEffect (o.effectStatus timeoutMs)
        { w with calls := w.calls ++ [w.effect o timeoutMs] } := by
  rw [Outcomes.effectStatus, Hal.effect]
  split
  · rw [vibrateOn, call_loaded h]
    rfl
  · rw [vibrateOff, call_loaded h]
    rfl

/-- The ways from there to the end of `sendit`. -/
inductive EffectStep (o : Outcomes) (timeoutMs : Int32) (w : Hal) : Hal → Prop
  | plays : vibeFailed (o.effectStatus timeoutMs) = false →
      EffectStep o timeoutMs w { w with calls := w.calls ++ [w.effect o timeoutMs] }
  | fails {w'} : vibeFailed (o.effectStatus timeoutMs) = true → w'.Loaded →
      w'.immVibeInitialized = false → isValidDeviceHandle w'.devHandle = false →
      w'.calls = w.calls ++ (w.effect o timeoutMs :: w.closing) → EffectStep o timeoutMs w w'

theorem effect_steps (h : w.Loaded) (timeoutMs : Int32) :
    ∃ w', (if timeoutMs ≠ 0 then vibrateOn o timeoutMs w else vibrateOff o w) =
        some (o.effectStatus timeoutMs, w') ∧ EffectStep o timeoutMs w w' := by
  rw [effect_eq h, afterEffect]
  cases hfail : vibeFailed (o.effectStatus timeoutMs) with
  | false => exact ⟨_, rfl, .plays hfail⟩
  | true =>
      have hmid : Hal.Loaded { w with calls := w.calls ++ [w.effect o timeoutMs] } := h
      obtain ⟨w', heq, hw', hi', hv', hcalls'⟩ := vibrateTerminate_eq hmid
      refine ⟨w', ?_, .fails hfail hw' hi' hv' ?_⟩
      · rw [if_pos rfl, heq]
        rfl
      · rw [hcalls', List.append_assoc]
        rfl

/-- What makes `vibrate_init` fail. -/
def InitFails (o : Outcomes) (w : Hal) : Prop :=
  (¬ w.Loaded ∧ ¬ o.Loads) ∨
    (w.immVibeInitialized = false ∧ vibeFailed (o.status .immVibeInitialize) = true) ∨
    (isValidDeviceHandle w.devHandle = false ∧ vibeFailed (o.status .immVibeOpenDevice) = true)

theorem InitStep.failed_iff {vs : VibeStatus} {w' : Hal} (h : InitStep o w vs w') :
    vibeFailed vs = true ↔ InitFails o w := by
  have hstart : w.Starts o →
      ¬ (w.immVibeInitialized = false ∧ vibeFailed (o.status .immVibeInitialize) = true) := by
    intro hstarts hfails
    obtain ⟨hno, hfail⟩ := hfails
    rcases hstarts with hi | hok
    · rw [hi] at hno
      cases hno
    · rw [hok] at hfail
      cases hfail
  have hload : w.Loaded ∨ o.Loads → ¬ (¬ w.Loaded ∧ ¬ o.Loads) := fun h hno => not_or.mpr hno h
  cases h with
  | missing hw ho => exact iff_of_true rfl (.inl ⟨hw, ho⟩)
  | fails _ hi hfail => exact iff_of_true hfail (.inr (.inl ⟨hi, hfail⟩))
  | noDevice _ _ hv hfail => exact iff_of_true hfail (.inr (.inr ⟨hv, hfail⟩))
  | opened hl hs _ hok =>
      refine iff_of_false (by rw [hok]; exact Bool.false_ne_true) ?_
      intro hfails
      rcases hfails with hno | hno | ⟨-, hno⟩
      · exact hload hl hno
      · exact hstart hs hno
      · rw [hok] at hno
        cases hno
  | «open» hl hs hv hok =>
      refine iff_of_false (by rw [hok]; exact Bool.false_ne_true) ?_
      intro hfails
      rcases hfails with hno | hno | ⟨hno, -⟩
      · exact hload hl hno
      · exact hstart hs hno
      · rw [hv] at hno
        cases hno

/-- A request goes through `vibrate_init`, and through one effect if that did
not fail. -/
theorem sendit_steps (h : w.Safe) (timeoutMs : Int32) :
    ∃ vs w₁, vibrateInit o w = some (vs, w₁) ∧ InitStep o w vs w₁ ∧
      ((vibeFailed vs = true ∧ sendit o timeoutMs w = some (-1, w₁)) ∨
        (vibeFailed vs = false ∧ w₁.Loaded ∧ ∃ w', EffectStep o timeoutMs w₁ w' ∧
          sendit o timeoutMs w =
            some (if vibeFailed (o.effectStatus timeoutMs) then 0 else -1, w'))) := by
  obtain ⟨vs, w₁, hinit, hstep⟩ := @vibrateInit_steps o w h
  refine ⟨vs, w₁, hinit, hstep, ?_⟩
  rw [sendit, hinit]
  simp only [Option.bind_eq_bind, Option.bind_some]
  cases hfail : vibeFailed vs with
  | true => exact .inl ⟨rfl, rfl⟩
  | false =>
      have h₁ : w₁.Loaded := by
        cases hstep with
        | missing => cases hfail
        | fails _ _ _ h₁ => exact h₁
        | noDevice _ _ _ _ h₁ => exact h₁
        | opened _ _ _ _ h₁ => exact h₁
        | «open» _ _ _ _ h₁ => exact h₁
      obtain ⟨w', heq, heffect⟩ := @effect_steps o w₁ h₁ timeoutMs
      refine .inr ⟨rfl, h₁, w', heffect, ?_⟩
      simp only [Bool.false_eq_true, if_false]
      by_cases ht : timeoutMs ≠ 0
      · rw [if_pos ht] at heq ⊢
        rw [heq]
        rfl
      · rw [if_neg ht] at heq ⊢
        rw [heq]
        rfl

end Steps

/-! ## The protocol -/

section Protocol

variable {o : Outcomes} {w w' : Hal} {timeoutMs : Int32}

/-- The assumption about ImmVibeOpenDevice: a valid handle comes with a status
that is no error, and only with such a one. -/
def Outcomes.OpensRight (o : Outcomes) : Prop :=
  isValidDeviceHandle o.handle = !vibeFailed (o.status .immVibeOpenDevice)

/-- The call is Play or Stop on the device `h`, with status `vs`. -/
inductive Call.EffectOn (h : VibeInt32) (vs : VibeStatus) : Call → Prop
  | play {duration magnitude style attackTime attackLevel fadeTime fadeLevel : VibeInt32} :
      EffectOn h vs (.immVibePlayMagSweepEffect h duration magnitude style attackTime attackLevel
        fadeTime fadeLevel vs)
  | stop : EffectOn h vs (.immVibeStopAllPlayingEffects h vs)

/-- A successful Play or Stop on the device `h`. -/
def Call.Plays (h : VibeInt32) (c : Call) : Prop := ∃ vs, 0 ≤ vs ∧ c.EffectOn h vs

/-- The library initialised, its device open, and effects played on it. -/
inductive Playing (h : VibeInt32) : List Call → Prop
  | mk {version index : VibeInt32} {vs vs' : VibeStatus} {played : List Call} :
      0 ≤ vs → 0 ≤ vs' → (∀ c ∈ played, c.Plays h) →
      Playing h (.immVibeInitialize version vs :: .immVibeOpenDevice index vs' h :: played)

/-- The complete uses of the library. -/
inductive Session : List Call → Prop
  | initializeFails {version : VibeInt32} {vs : VibeStatus} : vs < 0 →
      Session [.immVibeInitialize version vs]
  | openFails {version index h : VibeInt32} {vs vs' : VibeStatus} : 0 ≤ vs → vs' < 0 →
      Session [.immVibeInitialize version vs, .immVibeOpenDevice index vs' h, .immVibeTerminate]
  | effectFails {h : VibeInt32} {calls : List Call} {c : Call} {vs : VibeStatus} :
      Playing h calls → vs < 0 → c.EffectOn h vs →
      Session (calls ++ [c, .immVibeCloseDevice h, .immVibeTerminate])

def Complete (calls : List Call) : Prop :=
  ∃ sessions : List (List Call), (∀ s ∈ sessions, Session s) ∧ calls = sessions.flatten

/-- The beginning of some uses of the library, one after the other. -/
def Protocol (calls : List Call) : Prop := ∃ all, Complete all ∧ calls <+: all

theorem Complete.append {calls s : List Call} (h : Complete calls) (hs : Session s) :
    Complete (calls ++ s) := by
  obtain ⟨sessions, hall, rfl⟩ := h
  refine ⟨sessions ++ [s], fun x hx => ?_, by rw [List.flatten_append, List.flatten_singleton]⟩
  rcases List.mem_append.mp hx with hx | hx
  · exact hall x hx
  · rw [List.mem_singleton.mp hx]
    exact hs

theorem vibeFailed_iff {vs : VibeStatus} : vibeFailed vs = true ↔ vs < 0 := decide_eq_true_iff

theorem not_vibeFailed_iff {vs : VibeStatus} : vibeFailed vs = false ↔ 0 ≤ vs := by
  rw [vibeFailed, decide_eq_false_iff_not, Int32.not_lt]

theorem effect_on (o : Outcomes) (timeoutMs : Int32) (w : Hal) :
    (w.effect o timeoutMs).EffectOn w.devHandle (o.effectStatus timeoutMs) := by
  unfold Hal.effect Outcomes.effectStatus
  split
  · exact .play
  · exact .stop

/-- Nothing of the library is in use. -/
structure Idle (w : Hal) : Prop where
  safe : w.Safe
  initialized : w.immVibeInitialized = false
  handle : isValidDeviceHandle w.devHandle = false
  calls : Complete w.calls

/-- The device is open, and the calls of this use are the last ones. -/
structure Busy (w : Hal) : Prop where
  loaded : w.Loaded
  initialized : w.immVibeInitialized = true
  handle : isValidDeviceHandle w.devHandle = true
  calls : ∃ before now, Complete before ∧ Playing w.devHandle now ∧ w.calls = before ++ now

def Between (w : Hal) : Prop := Idle w ∨ Busy w

theorem Between.safe (h : Between w) : w.Safe := h.elim Idle.safe fun h => .inl h.loaded

theorem Between.protocol (h : Between w) : Protocol w.calls := by
  rcases h with h | h
  · exact ⟨w.calls, h.calls, List.prefix_rfl⟩
  · obtain ⟨before, now, hbefore, hnow, heq⟩ := h.calls
    have hstop : Call.EffectOn w.devHandle (-1)
        (.immVibeStopAllPlayingEffects w.devHandle (-1)) := .stop
    have hfails := Session.effectFails hnow (by decide) hstop
    refine ⟨_, hbefore.append hfails, ?_⟩
    rw [heq, ← List.append_assoc]
    exact List.prefix_append _ _

theorem InitStep.of_idle {vs : VibeStatus} (h : InitStep o w vs w') (hw : Idle w)
    (ho : o.OpensRight) :
    vibeFailed vs = true ∧ Idle w' ∨ vibeFailed vs = false ∧ Busy w' := by
  have hi := hw.initialized
  have hstarting : w.starting o = [.immVibeInitialize vibeGalaxysVersionNumber
      (o.status .immVibeInitialize)] := by
    rw [Hal.starting, hi]
    rfl
  have hstarted : w.Starts o → 0 ≤ o.status .immVibeInitialize := by
    intro hstarts
    rcases hstarts with hno | hok
    · rw [hi] at hno
      cases hno
    · exact not_vibeFailed_iff.mp hok
  cases h with
  | missing => exact .inl ⟨rfl, .inr ⟨fun _ => rfl, hi, hw.handle⟩, hi, hw.handle, hw.calls⟩
  | fails _ _ hfail h' hi' hdev hcalls =>
      refine .inl ⟨hfail, .inl h', hi', by rw [hdev, hw.handle], ?_⟩
      rw [hcalls, hstarting]
      exact hw.calls.append (.initializeFails (vibeFailed_iff.mp hfail))
  | noDevice _ hs _ hfail h' hi' hv' hcalls =>
      have hbad : isValidDeviceHandle o.handle = false := by rw [ho, hfail]; rfl
      refine .inl ⟨hfail, .inl h', hi', hv', ?_⟩
      rw [hcalls, hstarting, hbad]
      exact hw.calls.append (.openFails (hstarted hs) (vibeFailed_iff.mp hfail))
  | opened _ hs _ hok h' hi' hdev hcalls =>
      have hgood : isValidDeviceHandle w'.devHandle = true := by rw [hdev, ho, hok]; rfl
      refine .inr ⟨hok, h', hi', hgood, w.calls, _, hw.calls, ?_, hcalls⟩
      rw [hdev, hstarting]
      exact .mk (hstarted hs) (not_vibeFailed_iff.mp hok) fun c hc => absurd hc List.not_mem_nil
  | «open» _ _ hno =>
      rw [hw.handle] at hno
      cases hno

theorem InitStep.of_busy {vs : VibeStatus} (h : InitStep o w vs w') (hw : Busy w) :
    vibeFailed vs = false ∧ Busy w' := by
  have hi := hw.initialized
  have hv := hw.handle
  cases h with
  | missing hno => exact absurd hw.loaded hno
  | fails _ hno =>
      rw [hi] at hno
      cases hno
  | noDevice _ _ hno =>
      rw [hv] at hno
      cases hno
  | opened _ _ hno =>
      rw [hv] at hno
      cases hno
  | «open» _ _ _ hok h' hi' hdev hcalls =>
      obtain ⟨before, now, hbefore, hnow, heq⟩ := hw.calls
      refine ⟨hok, h', hi', by rw [hdev, hv], before, now, hbefore, by rwa [hdev], ?_⟩
      rw [hcalls, Hal.starting, hi, ← heq]
      exact List.append_nil _

/-- An effect, on an open device. -/
theorem EffectStep.between (h : EffectStep o timeoutMs w w') (hw : Busy w) : Between w' := by
  obtain ⟨before, now, hbefore, hnow, hcalls⟩ := hw.calls
  cases h with
  | plays hok =>
      have hplays : (w.effect o timeoutMs).Plays w.devHandle :=
        ⟨_, not_vibeFailed_iff.mp hok, effect_on o timeoutMs w⟩
      have hnow' : Playing w.devHandle (now ++ [w.effect o timeoutMs]) := by
        obtain ⟨hvs, hvs', hall⟩ := hnow
        refine .mk hvs hvs' fun c hc => ?_
        rcases List.mem_append.mp hc with hc | hc
        · exact hall c hc
        · rw [List.mem_singleton.mp hc]
          exact hplays
      refine .inr ⟨hw.loaded, hw.initialized, hw.handle, before, _, hbefore, hnow', ?_⟩
      rw [← List.append_assoc, ← hcalls]
  | fails hfail hw' hi' hv' hcalls' =>
      have hclosing : w.closing = [.immVibeCloseDevice w.devHandle, .immVibeTerminate] := by
        rw [Hal.closing, hw.handle, hw.initialized]
        rfl
      have hfails : Session _ :=
        .effectFails hnow (vibeFailed_iff.mp hfail) (effect_on o timeoutMs w)
      refine .inl ⟨.inl hw', hi', hv', ?_⟩
      rw [hcalls', hclosing, hcalls, List.append_assoc]
      exact hbefore.append hfails

theorem sendit_between (h : Between w) (ho : o.OpensRight) (timeoutMs : Int32) :
    ∃ rc w', sendit o timeoutMs w = some (rc, w') ∧ Between w' := by
  obtain ⟨vs, w₁, -, hstep, hrest⟩ := @sendit_steps o w h.safe timeoutMs
  have hinit : vibeFailed vs = true ∧ Idle w₁ ∨ vibeFailed vs = false ∧ Busy w₁ := by
    rcases h with h | h
    · exact hstep.of_idle h ho
    · exact .inr (hstep.of_busy h)
  rcases hrest with ⟨hfail, heq⟩ | ⟨hok, -, w', heffect, heq⟩
  · rcases hinit with ⟨-, h₁⟩ | ⟨hno, -⟩
    · exact ⟨_, w₁, heq, .inl h₁⟩
    · rw [hfail] at hno
      cases hno
  · rcases hinit with ⟨hno, -⟩ | ⟨-, h₁⟩
    · rw [hok] at hno
      cases hno
    · exact ⟨_, w', heq, heffect.between h₁⟩

/-- Whatever the requests and whatever the loader and the library answer: no
pointer is called that is not set, after each request all six are set or none,
and the calls follow the protocol. -/
theorem calls_follow_protocol (requests : List Request)
    (h : ∀ r ∈ requests, r.outcomes.OpensRight) :
    ∃ w, runEvents step Hal.load requests = some w ∧ Protocol w.calls ∧
      ((∀ s, w.symbols s = true) ∨ ∀ s, w.symbols s = false) := by
  have hstep : ∀ r ∈ requests, ∀ w, Between w → ∃ w', step w r = some w' ∧ Between w' := by
    intro r hr w hw
    obtain ⟨rc, w', heq, hw'⟩ := sendit_between hw (h r hr) r.timeoutMs
    refine ⟨w', ?_, hw'⟩
    rw [step, heq]
    rfl
  have hload : Idle Hal.load := ⟨.inr ⟨fun _ => rfl, rfl, rfl⟩, rfl, rfl, [],
    fun _ hs => absurd hs List.not_mem_nil, rfl⟩
  obtain ⟨w, heq, hw⟩ := runEvents_defined (.inl hload) hstep
  exact ⟨w, heq, hw.protocol, hw.safe.imp id And.left⟩

/-- Every symbol is found and every call succeeds. -/
def allSucceed : Outcomes :=
  { dlopen := true, dlsym := fun _ => true, status := fun _ => 0, handle := 7, intensity := 5000 }

def stopFails : Outcomes :=
  { allSucceed with status := fun s => if s = .immVibeStopAllPlayingEffects then -4 else 0 }

/-- An effect that starts and one that cannot be stopped. -/
theorem calls_follow_protocol_stop :
    ∃ w, runEvents step Hal.load [⟨100, allSucceed⟩, ⟨0, stopFails⟩] = some w ∧
      Protocol w.calls ∧ w.calls.length = 6 := by
  obtain ⟨w, heq, hw, -⟩ := calls_follow_protocol [⟨100, allSucceed⟩, ⟨0, stopFails⟩] (by
    simp only [List.forall_mem_cons]
    exact ⟨rfl, rfl, fun _ hr => absurd hr List.not_mem_nil⟩)
  refine ⟨w, heq, hw, ?_⟩
  rw [← Option.some.inj heq]
  rfl

end Protocol

/-! ## The result -/

section Result

variable {o : Outcomes} {w : Hal} {timeoutMs : Int32}

theorem sendit_safe (h : w.Safe) (timeoutMs : Int32) :
    ∃ rc w', sendit o timeoutMs w = some (rc, w') ∧ w'.Safe := by
  obtain ⟨vs, w₁, -, hstep, hrest⟩ := @sendit_steps o w h timeoutMs
  rcases hrest with ⟨-, heq⟩ | ⟨-, h₁, w', heffect, heq⟩
  · refine ⟨_, w₁, heq, ?_⟩
    cases hstep with
    | missing hw =>
        rcases h with h | ⟨-, hi, hv⟩
        · exact absurd h hw
        · exact .inr ⟨fun _ => rfl, hi, hv⟩
    | fails _ _ _ h₁ => exact .inl h₁
    | noDevice _ _ _ _ h₁ => exact .inl h₁
    | opened _ _ _ _ h₁ => exact .inl h₁
    | «open» _ _ _ _ h₁ => exact .inl h₁
  · refine ⟨_, w', heq, .inl ?_⟩
    cases heffect with
    | plays => exact h₁
    | fails _ hw' => exact hw'

/-- The bindings are safe after every request. -/
theorem safe_reachable {requests : List Request}
    (hreach : runEvents step Hal.load requests = some w) : w.Safe := by
  have hrun : Run step always Hal.load requests w :=
    Run.of_runEvents (fun _ _ _ => trivial) hreach
  refine hrun.invariant (I := Hal.Safe) (.inr ⟨fun _ => rfl, rfl, rfl⟩) ?_
  intro w₁ r w₂ h₁ _ hstep
  obtain ⟨rc, w', heq, hw'⟩ := @sendit_safe r.outcomes w₁ h₁ r.timeoutMs
  rw [step, heq, Option.map_some, Option.some.injEq] at hstep
  rwa [← hstep]

/-- `vibrate_init` did not fail, and neither did the call that was made for the
request. -/
def CarriedOut (o : Outcomes) (timeoutMs : Int32) (w : Hal) : Prop :=
  ∃ vs w₁, vibrateInit o w = some (vs, w₁) ∧ 0 ≤ vs ∧ 0 ≤ o.effectStatus timeoutMs

/-- The result of a request says whether it was carried out exactly if
`vibrate_init` fails: after that the two results are the wrong way round. -/
theorem sendit_result_iff {requests : List Request}
    (hreach : runEvents step Hal.load requests = some w) :
    (∃ rc w', sendit o timeoutMs w = some (rc, w') ∧ (rc = 0 ↔ CarriedOut o timeoutMs w)) ↔
      InitFails o w := by
  have hsafe := safe_reachable hreach
  obtain ⟨vs, w₁, hinit, hstep, hrest⟩ := @sendit_steps o w hsafe timeoutMs
  have hcarried : CarriedOut o timeoutMs w ↔ 0 ≤ vs ∧ 0 ≤ o.effectStatus timeoutMs := by
    constructor
    · intro hdone
      obtain ⟨vs', w', heq, hvs, heffect⟩ := hdone
      rw [hinit] at heq
      cases heq
      exact ⟨hvs, heffect⟩
    · exact fun h => ⟨vs, w₁, hinit, h⟩
  rw [← hstep.failed_iff, hcarried, ← not_vibeFailed_iff, ← not_vibeFailed_iff]
  rcases hrest with ⟨hfail, heq⟩ | ⟨hok, -, w', -, heq⟩
  · refine iff_of_true ⟨_, _, heq, iff_of_false (by decide) ?_⟩ hfail
    intro hdone
    obtain ⟨hno, -⟩ := hdone
    rw [hfail] at hno
    cases hno
  · refine iff_of_false ?_ (by rw [hok]; exact Bool.false_ne_true)
    intro hresult
    obtain ⟨rc, w'', heq', hrc⟩ := hresult
    rw [heq, Option.some.injEq, Prod.mk.injEq] at heq'
    rw [← heq'.1] at hrc
    cases heffect : vibeFailed (o.effectStatus timeoutMs) with
    | true =>
        rw [heffect] at hrc
        cases (hrc.mp rfl).2
    | false =>
        rw [heffect] at hrc
        exact absurd (hrc.mpr ⟨hok, rfl⟩) (by decide)

/-- A library that is not found, and then one whose effect plays. -/
theorem sendit_result_iff_missing :
    (∃ rc w', sendit { allSucceed with dlopen := false } 100 Hal.load = some (rc, w') ∧
      (rc = 0 ↔ CarriedOut { allSucceed with dlopen := false } 100 Hal.load)) ∧
    ¬ ∃ rc w', sendit allSucceed 100 Hal.load = some (rc, w') ∧
      (rc = 0 ↔ CarriedOut allSucceed 100 Hal.load) := by
  have hload : runEvents step Hal.load [] = some Hal.load := rfl
  constructor
  · refine (sendit_result_iff hload).mpr (.inl ⟨fun hno => ?_, fun hno => ?_⟩)
    · cases hno .immVibeInitialize
    · cases hno.1
  · rw [sendit_result_iff hload]
    intro hfails
    rcases hfails with ⟨-, hno⟩ | ⟨-, hno⟩ | ⟨-, hno⟩
    · exact hno ⟨rfl, fun _ => rfl⟩
    · cases hno
    · cases hno

/-- The effect plays and the result is -1. -/
theorem played_effect_gives_error :
    CarriedOut allSucceed 100 Hal.load ∧
      ∃ w', sendit allSucceed 100 Hal.load = some (-1, w') ∧ w'.calls.length = 3 ∧
        ¬ ((-1 : Int32) = 0 ↔ CarriedOut allSucceed 100 Hal.load) := by
  have hcarried : CarriedOut allSucceed 100 Hal.load := ⟨0, _, rfl, by decide, by decide⟩
  exact ⟨hcarried, _, rfl, rfl, fun hiff => absurd (hiff.mpr hcarried) (by decide)⟩

end Result

end Pisces.Vibrator
