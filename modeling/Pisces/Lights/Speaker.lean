import Pisces.Lights.Model

/-!
# The notification LED

Three sources share the LED: attention before notifications before the battery,
and a source counts if its colour is not black. The colour on show is cached
with all its bits, and of a new one nothing is written if the cached one is the
same. What is shown are the 24 low bits of the cached colour; since a source is
selected by these bits too, the LED always shows the source of the highest
priority that is lit.
-/

namespace Pisces.Lights

open Pisces.Lib

/-- Every write succeeds. -/
def works : Env := fun _ => none

/-- The 24 low bits of a colour. -/
def rgb (s : LightState) : ℤ := (s.color &&& 0x00ffffff).toNat

theorem isLit_iff (s : LightState) : isLit s = true ↔ rgb s ≠ 0 := by
  rw [isLit, decide_eq_true_iff, rgb, ne_eq, ne_eq, Int.natCast_eq_zero, ← BitVec.toNat_inj]
  rfl

/-- The three colour values are the digits of the 24 low bits. -/
theorem rgb_eq (s : LightState) :
    ledColor ((s.color >>> 16) &&& 0xFF).toNat ((s.color >>> 8) &&& 0xFF).toNat
      (s.color &&& 0xFF).toNat = rgb s := by
  have hred := toNat_and_field (s.color >>> 16) 0xFF (s := 0) (b := 8) rfl
  have hgreen := toNat_and_field (s.color >>> 8) 0xFF (s := 0) (b := 8) rfl
  have hblue := toNat_and_field s.color 0xFF (s := 0) (b := 8) rfl
  have hall := toNat_and_field s.color 0x00ffffff (s := 0) (b := 24) rfl
  rw [BitVec.toNat_ushiftRight, Nat.shiftRight_eq_div_pow] at hred hgreen
  rw [ledColor, rgb, hall, hred, hgreen, hblue]
  omega

theorem writeInt_works (f : File) (value : ℤ) (w : Hal) :
    (writeInt works f value w).2 = Hal.store f value { w with writes := w.writes + 1 } := rfl

/-- The LED shows one colour more. -/
theorem writeLed_latches (red green blue : ℤ) (w : Hal) :
    (writeLed works red green blue w).2.latches = ledColor red green blue :: w.latches := by
  simp only [writeLed, writeInt_works, Hal.store, reduceCtorEq, if_false, if_true]
  rfl

/-- An all-zero colour was on show before any other that is new. -/
def OffBeforeOn (latches : List ℤ) : Prop :=
  latches.IsChain fun new old => new ≠ 0 → new ≠ old → old = 0

/-- The LED shows the cached colour. -/
structure Shows (w : Hal) : Prop where
  head : w.latches.head? = some (rgb w.speakerLight)
  chain : OffBeforeOn w.latches

/-- A colour that is selected is shown. -/
theorem setSpeakerLight_shows {w : Hal} (s : LightState) (h : Shows w) :
    Shows (setSpeakerLightLocked works s w).2 ∧
      rgb (setSpeakerLightLocked works s w).2.speakerLight = rgb s := by
  rw [setSpeakerLightLocked]
  split
  · next hsame => exact ⟨h, by rw [rgb, rgb, hsame]⟩
  · obtain ⟨old, rest, hlatches⟩ : ∃ old rest, w.latches = old :: rest := by
      cases hl : w.latches with
      | nil =>
          have hhead := h.head
          rw [hl] at hhead
          cases hhead
      | cons old rest => exact ⟨old, rest, rfl⟩
    have hchain := h.chain
    dsimp only
    split
    · -- the zeros in between are on show when the colour comes
      refine ⟨⟨?_, ?_⟩, rfl⟩
      · rw [writeLed_latches, rgb_eq]
        rfl
      · rw [writeLed_latches, writeLed_latches, hlatches, OffBeforeOn,
          List.isChain_cons_cons, List.isChain_cons_cons, ← hlatches]
        exact ⟨fun _ _ => rfl, fun hno => absurd rfl hno, hchain⟩
    · next hdark =>
        have hzero : rgb s = 0 := by
          by_contra hne
          exact hdark ((isLit_iff s).mpr hne)
        refine ⟨⟨?_, ?_⟩, rfl⟩
        · rw [writeLed_latches, rgb_eq]
          rfl
        · rw [writeLed_latches, rgb_eq, hzero, hlatches, OffBeforeOn,
            List.isChain_cons_cons, ← hlatches]
          exact ⟨fun hno => absurd rfl hno, hchain⟩

/-- The colour of the first source that is lit, and black if none is. -/
def priorityColor (w : Hal) : ℤ :=
  if rgb w.attention ≠ 0 then rgb w.attention
  else if rgb w.notification ≠ 0 then rgb w.notification
  else rgb w.battery

/-- The LED shows that colour. -/
def ShowsPriority (w : Hal) : Prop := Shows w ∧ rgb w.speakerLight = priorityColor w

/-- The three states that the LED is for are not touched by showing one of them. -/
structure SameSources (w w' : Hal) : Prop where
  attention : w'.attention = w.attention
  notification : w'.notification = w.notification
  battery : w'.battery = w.battery

theorem SameVars.sources {w w' : Hal} (h : SameVars w w') : SameSources w w' :=
  ⟨h.attention, h.notification, h.battery⟩

theorem setSpeakerLight_sources (env : Env) (s : LightState) (w : Hal) :
    SameSources w (setSpeakerLightLocked env s w).2 := by
  rw [setSpeakerLightLocked]
  split
  · exact (SameVars.refl w).sources
  · have hvars : ∀ w' r g b, SameVars { w with speakerLight := s } w' →
        SameSources w (writeLed env r g b w').2 := by
      intro w' r g b hw'
      have hall := hw'.trans (@writeLed_vars env r g b w')
      exact ⟨hall.attention, hall.notification, hall.battery⟩
    dsimp only
    split
    · exact hvars _ _ _ _ (writeLed_vars ..)
    · exact hvars _ _ _ _ (.refl _)

theorem updateSpeakerLight_sources (env : Env) (w : Hal) :
    SameSources w (updateSpeakerLightLocked env w).2 := by
  rw [updateSpeakerLightLocked]
  split
  · exact setSpeakerLight_sources ..
  · split
    · exact setSpeakerLight_sources ..
    · exact setSpeakerLight_sources ..

theorem updateSpeakerLight_shows {w : Hal} (h : Shows w) :
    ShowsPriority (updateSpeakerLightLocked works w).2 := by
  have hsource : ∀ s, rgb s = priorityColor w →
      ShowsPriority (setSpeakerLightLocked works s w).2 := by
    intro s hs
    obtain ⟨hshows, hcolor⟩ := setSpeakerLight_shows s h
    obtain ⟨hatt, hnot, hbat⟩ := setSpeakerLight_sources works s w
    refine ⟨hshows, ?_⟩
    rw [hcolor, hs, priorityColor, priorityColor, hatt, hnot, hbat]
  rw [updateSpeakerLightLocked]
  split
  · next hatt =>
      refine hsource w.attention ?_
      rw [priorityColor, if_pos ((isLit_iff _).mp hatt)]
  · next hatt =>
      rw [isLit_iff] at hatt
      split
      · next hnot =>
          refine hsource w.notification ?_
          rw [priorityColor, if_neg hatt, if_pos ((isLit_iff _).mp hnot)]
      · next hnot =>
          rw [isLit_iff] at hnot
          refine hsource w.battery ?_
          rw [priorityColor, if_neg hatt, if_neg hnot]

theorem ShowsPriority.of_vars {w w' : Hal} (h : ShowsPriority w) (hvars : SameVars w w')
    (hlatches : w'.latches = w.latches) : ShowsPriority w' := by
  refine ⟨⟨?_, ?_⟩, ?_⟩
  · rw [hlatches, hvars.speakerLight]
    exact h.1.head
  · rw [hlatches]
    exact h.1.chain
  · rw [hvars.speakerLight, priorityColor, hvars.attention, hvars.notification, hvars.battery]
    exact h.2

theorem setLight_shows {w : Hal} (h : ShowsPriority w) (c : Call) :
    ShowsPriority (setLight works c w).2 := by
  obtain ⟨light, s⟩ := c
  cases light with
  | backlight =>
      have hmid : ShowsPriority (unlessSame w.oldBacklight (rgbToBrightness2 s)
          (writeBacklight works (rgbToBrightness2 s)) w).2 :=
        unlessSame_meets (h.of_vars (writeBacklight_vars ..) (writeBacklight_latches ..)) h
      exact ⟨⟨hmid.1.head, hmid.1.chain⟩, hmid.2⟩
  | buttons =>
      have hmid : ShowsPriority (unlessSame w.oldButtons (rgbToBrightness s)
          (writeInt works .button (rgbToBrightness s)) w).2 :=
        unlessSame_meets (h.of_vars (writeInt_vars ..) (writeInt_latches (by decide) ..)) h
      exact ⟨⟨hmid.1.head, hmid.1.chain⟩, hmid.2⟩
  | attention => exact updateSpeakerLight_shows ⟨h.1.head, h.1.chain⟩
  | notifications => exact updateSpeakerLight_shows ⟨h.1.head, h.1.chain⟩
  | battery => exact updateSpeakerLight_shows ⟨h.1.head, h.1.chain⟩

theorem load_shows (files : File → ℤ) : ShowsPriority (Hal.load files) := by
  have hblack : rgb ⟨0⟩ = 0 := by decide
  refine ⟨⟨congrArg some hblack.symm, .singleton _⟩, ?_⟩
  rw [priorityColor, Hal.load]
  simp only [ite_self]

/-! ## What the sources are -/

/-- What each light was last asked to show, and black before that. -/
def lastRequest (calls : List Call) : Light → LightState :=
  calls.foldl (fun last c => Function.update last c.light c.state) fun _ => ⟨0⟩

theorem lastRequest_concat (calls : List Call) (c : Call) :
    lastRequest (calls ++ [c]) = Function.update (lastRequest calls) c.light c.state := by
  rw [lastRequest, List.foldl_concat]
  rfl

/-- The three states that the LED is for are the last requests. -/
structure Requested (calls : List Call) (w : Hal) : Prop where
  attention : w.attention = lastRequest calls .attention
  notification : w.notification = lastRequest calls .notifications
  battery : w.battery = lastRequest calls .battery

theorem load_requested (files : File → ℤ) : Requested [] (Hal.load files) := ⟨rfl, rfl, rfl⟩

theorem Requested.of_sources {calls : List Call} {w w' : Hal} (h : Requested calls w)
    (hs : SameSources w w') : Requested calls w' where
  attention := hs.attention.trans h.attention
  notification := hs.notification.trans h.notification
  battery := hs.battery.trans h.battery

/-- One call more changes the state of its own light only. -/
theorem Requested.concat {calls : List Call} {w w' : Hal} (h : Requested calls w) (c : Call)
    (hatt : w'.attention = if .attention = c.light then c.state else w.attention)
    (hnot : w'.notification = if .notifications = c.light then c.state else w.notification)
    (hbat : w'.battery = if .battery = c.light then c.state else w.battery) :
    Requested (calls ++ [c]) w' where
  attention := by rw [lastRequest_concat, Function.update_apply, hatt, h.attention]
  notification := by rw [lastRequest_concat, Function.update_apply, hnot, h.notification]
  battery := by rw [lastRequest_concat, Function.update_apply, hbat, h.battery]

/-- Every call, whether its writes succeed or not, leaves its own request. -/
theorem setLight_requested {env : Env} {calls : List Call} {w : Hal} (h : Requested calls w)
    (c : Call) : Requested (calls ++ [c]) (setLight env c w).2 := by
  obtain ⟨light, s⟩ := c
  cases light with
  | backlight =>
      have hmid : SameVars w (unlessSame w.oldBacklight (rgbToBrightness2 s)
          (writeBacklight env (rgbToBrightness2 s)) w).2 :=
        unlessSame_meets (writeBacklight_vars ..) (.refl w)
      exact h.concat ⟨.backlight, s⟩ hmid.attention hmid.notification hmid.battery
  | buttons =>
      have hmid : SameVars w (unlessSame w.oldButtons (rgbToBrightness s)
          (writeInt env .button (rgbToBrightness s)) w).2 :=
        unlessSame_meets (writeInt_vars ..) (.refl w)
      exact h.concat ⟨.buttons, s⟩ hmid.attention hmid.notification hmid.battery
  | attention =>
      have hstored : Requested (calls ++ [⟨.attention, s⟩]) { w with attention := s } :=
        h.concat _ rfl rfl rfl
      exact hstored.of_sources (updateSpeakerLight_sources ..)
  | notifications =>
      have hstored : Requested (calls ++ [⟨.notifications, s⟩]) { w with notification := s } :=
        h.concat _ rfl rfl rfl
      exact hstored.of_sources (updateSpeakerLight_sources ..)
  | battery =>
      have hstored : Requested (calls ++ [⟨.battery, s⟩]) { w with battery := s } :=
        h.concat _ rfl rfl rfl
      exact hstored.of_sources (updateSpeakerLight_sources ..)

theorem requested_reachable {env : Env} {files : File → ℤ} {calls : List Call} {w : Hal}
    (hrun : Run (step env) always (Hal.load files) calls w) : Requested calls w := by
  induction hrun with
  | nil => exact load_requested files
  | @snoc calls w w' c _ _ hstep ih =>
      cases hstep
      exact setLight_requested ih c

/-- After every call the LED shows the source of the highest priority that is
lit, the sources being the last requests; and it was off before it showed a new
colour. -/
theorem led_shows_priority {files : File → ℤ} {calls : List Call} {w : Hal}
    (hrun : Run (step works) always (Hal.load files) calls w) :
    Requested calls w ∧ w.latches.head? = some (priorityColor w) ∧ OffBeforeOn w.latches := by
  have hshows : ShowsPriority w := by
    refine hrun.invariant (load_shows files) ?_
    intro w₁ c _ h₁ _ hstep
    cases hstep
    exact setLight_shows h₁ c
  refine ⟨requested_reachable hrun, ?_⟩
  rw [← hshows.2]
  exact ⟨hshows.1.head, hshows.1.chain⟩

/-- A notification beside a charging battery, and its end. -/
theorem led_shows_priority_notified :
    ∃ w, Run (step works) always (Hal.load fun _ => 0) [⟨.battery, ⟨0xff00ff00⟩⟩,
        ⟨.notifications, ⟨0xff0000ff⟩⟩, ⟨.notifications, ⟨0xff000000⟩⟩] w ∧
      w.latches = [0x00ff00, 0, 0x0000ff, 0, 0x00ff00, 0, 0] ∧
      w.battery = ⟨0xff00ff00⟩ ∧ w.latches.head? = some (priorityColor w) := by
  have hrun : Run (step works) always (Hal.load fun _ => 0) [⟨.battery, ⟨0xff00ff00⟩⟩,
      ⟨.notifications, ⟨0xff0000ff⟩⟩, ⟨.notifications, ⟨0xff000000⟩⟩] _ :=
    .of_runEvents (fun _ _ _ => trivial) rfl
  exact ⟨_, hrun, by decide, (led_shows_priority hrun).1.battery, (led_shows_priority hrun).2.1⟩

end Pisces.Lights
