import Pisces.Dualboot.Isolation

/-!
# Android between a kill and the next switch

A killed switch leaves a move under way or both systems sealed, and the system
that boots then writes to /data before the script runs again. `dualdata_open`
takes whatever it finds in /data for the rest of the interrupted move, and a
switch that finds both systems sealed unpacks beside what is there. Neither
finds a name taken, and so replaces or leaves behind an entry, as long as what
was written in between has no name of the set it is moved to. That the entry
ends up with its own system is another matter: it does when the system that has
made it is the one whose move the script goes on with.
-/

namespace Pisces.Dualboot

open Pisces.Lib Pisces.Lib.Script

/-! ## What a command keeps -/

/-- The entry belongs to system `k`: it is in the directory where that system is
put away or being moved, or it is active and from `k`. -/
def World.InSet (w : World) (k : SysId) (n : Name) (v : Node) : Prop :=
  (w.data.active.lookup n = some v ∧ w.whose n = k) ∨
    ∃ s, (w.data.sealed k = some s ∨ w.data.tmp k = some s) ∧ s.lookup n = some v

/-- The script gives no meaning to the name. -/
def Ordinary (n : Name) : Prop := n ≠ layoutVersion ∧ ∀ k, n ≠ legacyName k

/-- No ordinary entry is lost, changed or made the other system's. -/
def Carried (w w' : World) : Prop := ∀ k n v, Ordinary n → w.InSet k n v → w'.InSet k n v

/-- The active entries are all from system `k`. -/
def Mine (k : SysId) (w : World) : Prop := ∀ n ∈ w.data.active, Ordinary n → w.whose n = k

/-- There is one .tmp directory at most, and it is not in the way of a sealed
one. -/
structure Sound (d : Data) : Prop where
  alone : ∀ m, d.tmp m ≠ none → d.tmp m.other = none ∧ d.sealed m = none
  noMedia : "media" ∉ d.active

variable {d d' : Data} {w w' w₀ : World} {k m u : SysId} {t : Entries} {env : Env}

theorem Carried.of_eq (hdata : w'.data = w.data) (hwhose : w'.whose = w.whose) :
    Carried w w' := by
  intro k n v _ hv
  rwa [World.InSet, hdata, hwhose]

theorem Carried.refl (w : World) : Carried w w := .of_eq rfl rfl

theorem Carried.trans (h : Carried w₀ w) (h' : Carried w w') : Carried w₀ w' :=
  fun k n v hn hv => h' k n v hn (h k n v hn hv)

/-- A change of the active entries alone. -/
theorem Carried.active {a : Entries}
    (h : ∀ n v, Ordinary n → w.data.active.lookup n = some v → a.lookup n = some v) :
    Carried w { w with data := { w.data with active := a } } := by
  rintro k n v hn (⟨hv, hk⟩ | hv)
  · exact .inl ⟨h n v hn hv, hk⟩
  · exact .inr hv

theorem Mine.mono (h : Mine k w) (hsub : ∀ n ∈ w'.data.active, n ∈ w.data.active)
    (hwhose : w'.whose = w.whose) : Mine k w' := by
  intro n hn hord
  rw [hwhose]
  exact h n (hsub n hn) hord

/-- Nobody minds about .layout_version. -/
theorem Mine.of_versions (h : ∀ n ∈ w.data.active, n = layoutVersion) (k : SysId) : Mine k w :=
  fun n hn hord => absurd (h n hn) hord.1

theorem Sound.ofSettled (h : d.Settled) (hmedia : "media" ∉ d.active) : Sound d :=
  ⟨fun m hm => absurd (h m) hm, hmedia⟩

theorem Sound.erase (h : Sound d) (n : Name) : Sound { d with active := d.active.erase n } :=
  ⟨h.alone, fun hn => h.noMedia (Finmap.mem_erase.mp hn).2⟩

/-- A step of a move between /data and system-m.tmp: what was in one of the two
is there still or in the other, and as system `m`'s where it has moved. -/
theorem Carried.withMove {a' t' : Entries} {cs : List Name} {whose : Name → SysId}
    (ht : w.data.tmp m = some t)
    (hactive : ∀ n v, Ordinary n → w.data.active.lookup n = some v →
      (a'.lookup n = some v ∧ whose n = w.whose n) ∨ t'.lookup n = some v ∧ w.whose n = m)
    (htmp : ∀ n v, Ordinary n → t.lookup n = some v →
      t'.lookup n = some v ∨ a'.lookup n = some v ∧ whose n = m) :
    Carried w { w with data := w.data.withMove m a' t', clashes := cs, whose := whose } := by
  have hin : ∀ {n v}, t'.lookup n = some v →
      World.InSet { w with data := w.data.withMove m a' t', clashes := cs, whose := whose }
        m n v := fun hv => .inr ⟨t', .inr (Data.withMove_tmp w.data m a' t'), hv⟩
  rintro k n v hn (⟨hv, rfl⟩ | ⟨s, hs | hs, hv⟩)
  · rcases hactive n v hn hv with h | ⟨hv', hm⟩
    · exact .inl h
    · rw [hm]
      exact hin hv'
  · exact .inr ⟨s, .inl hs, hv⟩
  · rcases SysId.eq_or_other m k with rfl | rfl
    · rw [ht, Option.some.injEq] at hs
      subst hs
      rcases htmp n v hn hv with hv' | h
      · exact hin hv'
      · exact .inl h
    · exact .inr ⟨s, .inr ((Data.withMove_tmp_other w.data m a' t').trans hs), hv⟩

theorem Sound.withMove (h : Sound d) (ht : d.tmp m = some t) {a' t' : Entries}
    (hmedia : "media" ∉ a') : Sound (d.withMove m a' t') := by
  obtain ⟨hother, hsealed⟩ := h.alone m (by rw [ht]; exact Option.some_ne_none _)
  refine ⟨fun j hj => ?_, hmedia⟩
  rcases SysId.eq_or_other m j with rfl | rfl
  · exact ⟨(Data.withMove_tmp_other d _ a' t').trans hother, hsealed⟩
  · rw [Data.withMove_tmp_other] at hj
    exact absurd hother hj

/-- The active entries stay, and so does every directory, if under its other
name. -/
theorem Carried.of_kept (hactive : d'.active = w.data.active)
    (hkept : ∀ j s, w.data.sealed j = some s ∨ w.data.tmp j = some s →
      d'.sealed j = some s ∨ d'.tmp j = some s) : Carried w { w with data := d' } := by
  intro j n v _ hin
  rcases hin with ⟨hv, hj⟩ | ⟨s, hs, hv⟩
  · exact .inl ⟨by rw [hactive, hv], hj⟩
  · exact .inr ⟨s, hkept j s hs, hv⟩

/-- What holds at every point of a command that found `w₀`. -/
structure Clean (w₀ w : World) : Prop extends Sound w.data where
  clashes : ∀ n ∈ w.clashes, n = layoutVersion
  carried : Carried w₀ w

theorem Clean.of_eq (h : Clean w₀ w) (hdata : w'.data = w.data) (hclashes : w'.clashes = w.clashes)
    (hwhose : w'.whose = w.whose) : Clean w₀ w' := by
  refine ⟨?_, ?_, h.carried.trans (.of_eq hdata hwhose)⟩
  · rw [hdata]
    exact h.toSound
  · rw [hclashes]
    exact h.clashes

theorem Clean.same (h : Clean w₀ w) (hw' : SameDisk w w') : Clean w₀ w' :=
  h.of_eq hw'.data hw'.clashes hw'.whose

theorem Clean.step (h : Clean w₀ w) (hsound : Sound d')
    (hcarried : Carried w { w with data := d' }) : Clean w₀ { w with data := d' } :=
  ⟨hsound, h.clashes, h.carried.trans hcarried⟩

/-- /data and the .tmp directory of the move share no name but
.layout_version. -/
def Shared (a t : Entries) : Prop := ∀ n ∈ a, n ∈ t → n = layoutVersion

theorem Clean.packing (h : Clean w₀ w) (ht : w.data.tmp m = some t)
    (hsplit : Shared w.data.active t) (hmine : Mine m w) {rest : List Name}
    (hp : Packing m t w rest w') : Clean w₀ w' := by
  obtain ⟨a', t', cs, hpart, hcs, rfl⟩ := hp
  have hdisj : ∀ {n}, Ordinary n → n ∈ w.data.active → n ∉ t :=
    fun hn ha hnt => hn.1 (hsplit _ ha hnt)
  refine ⟨h.toSound.withMove ht fun hn => h.noMedia (hpart.mem_src hn), ?_,
    h.carried.trans (.withMove ht ?_ ?_)⟩
  · intro n hn
    rcases hcs n hn with hn | ⟨ha, hn⟩
    · exact h.clashes n hn
    · exact hsplit n ha hn
  · intro n v hn hv
    refine (hpart.lookup_either (hdisj hn) (.inl hv)).imp (fun hv' => ⟨hv', rfl⟩) fun hv' => ?_
    exact ⟨hv', hmine n (Finmap.mem_of_lookup_eq_some hv) hn⟩
  · intro n v hn hv
    refine .inl ((hpart.lookup_either (hdisj hn) (.inr hv)).resolve_left fun hv' => ?_)
    -- what is still to move was active before
    exact hdisj hn (hpart.mem_src (Finmap.mem_of_lookup_eq_some hv'))
      (Finmap.mem_of_lookup_eq_some hv)

theorem Clean.unpacking (h : Clean w₀ w) (ht : w.data.tmp m = some t)
    (hsplit : Shared w.data.active t) (hmedia : "media" ∉ t) {rest : List Name}
    (hp : Unpacking m t w rest w') : Clean w₀ w' := by
  obtain ⟨a', t', cs, hpart, hcs, rfl⟩ := hp
  have hdisj : ∀ {n}, Ordinary n → n ∈ t → n ∉ w.data.active :=
    fun hn hnt ha => hn.1 (hsplit _ ha hnt)
  refine ⟨h.toSound.withMove ht ?_, ?_, h.carried.trans (.withMove ht ?_ ?_)⟩
  · intro hn
    rcases hpart.mem_either hn with hn | hn
    · exact hmedia hn
    · exact h.noMedia hn
  · intro n hn
    rcases hcs n hn with hn | ⟨ha, hn⟩
    · exact h.clashes n hn
    · exact hsplit n ha hn
  · intro n v hn hv
    have ha := Finmap.mem_of_lookup_eq_some hv
    have hnot : n ∉ t := fun hnt => hdisj hn hnt ha
    refine .inl ⟨(hpart.lookup_either (hdisj hn) (.inr hv)).resolve_left fun hv' => ?_,
      if_neg fun hnt => hnot hnt.1⟩
    exact hnot (hpart.mem_src (Finmap.mem_of_lookup_eq_some hv'))
  · intro n v hn hv
    have hnt := Finmap.mem_of_lookup_eq_some hv
    by_cases hleft : n ∈ t'
    · refine .inl ((hpart.lookup_either (hdisj hn) (.inl hv)).resolve_right fun hv' => ?_)
      exact hdisj hn hnt ((hpart.mem_dst hleft).mp (Finmap.mem_of_lookup_eq_some hv'))
    · refine .inr ⟨(hpart.lookup_either (hdisj hn) (.inl hv)).resolve_left fun hv' => ?_,
        if_pos ⟨hnt, hleft⟩⟩
      exact hleft (Finmap.mem_of_lookup_eq_some hv')

/-- What a finished packing leaves. -/
structure Sealed (m : SysId) (t : Entries) (w₀ w w' : World) : Prop where
  clean : Clean w₀ w'
  settled : w'.data.Settled
  active : ∀ n ∈ w'.data.active, n = layoutVersion
  other : w'.data.sealed m.other = w.data.sealed m.other
  sealed : ∃ t', w'.data.sealed m = some t' ∧ ∀ n ∈ t', n ∈ w.data.active ∨ n ∈ t
  enabled : w'.enabled = w.enabled

/-- The system that a switch to `u` takes the active entries to be from. -/
inductive Takes (d : Data) (u : SysId) : SysId → Prop where
  /-- A move is finished first. -/
  | finish {m : SysId} (h : d.tmp m ≠ none) : Takes d u m
  /-- System `u` is put away, the other one is not. -/
  | pack (h : d.Settled) (hother : d.stored u.other = none) (hu : d.stored u ≠ none) :
      Takes d u u.other
  /-- The other system is put away already. -/
  | join (h : d.Settled) (hother : d.stored u.other ≠ none) : Takes d u u

/-- What is asked of the state a switch to `u` starts in: nothing that is to be
moved over a name that is there, but .layout_version, no media to unpack, and
nothing active from another system than the script believes. Legacy directories
do not count where they are removed or migrated first. -/
structure Free (w : World) (u : SysId) : Prop where
  media : ∀ s, w.data.stored u = some s ∨ w.data.tmp u = some s → "media" ∉ s
  finish : ∀ m t, w.data.tmp m = some t → ∀ n ∈ w.data.active, n ∈ t →
    n = layoutVersion ∨ ∃ k, n = legacyName k ∧ w.data.legacyDir k = some []
  unpack : w.data.Settled → w.data.stored u.other ≠ none → ∀ s, w.data.stored u = some s →
    ∀ n ∈ w.data.active, n ∈ s → n = layoutVersion ∨ w.data.IsLegacy n
  mine : ∀ k, Takes w.data u k → Mine k w

theorem Free.of_eq (h : Free w u) (hdata : w'.data = w.data) (hwhose : w'.whose = w.whose) :
    Free w' u := by
  obtain ⟨hmedia, hfinish, hunpack, hmine⟩ := h
  rw [← hdata] at hmedia hfinish hunpack hmine
  exact ⟨hmedia, hfinish, hunpack, fun k hk =>
    (hmine k hk).mono (fun n hn => by rwa [← hdata]) hwhose⟩

/-- What a switch to `u` finds when /data is open. -/
structure Open (u : SysId) (w : World) : Prop where
  settled : w.data.Settled
  media : ∀ s, w.data.sealed u = some s → "media" ∉ s
  shared : w.data.sealed u.other ≠ none → ∀ s, w.data.sealed u = some s → Shared w.data.active s
  packs : w.data.sealed u.other = none → w.data.sealed u ≠ none → Mine u.other w
  joins : w.data.sealed u.other ≠ none → Mine u w

/-- The legacy directories are brought to where the systems are put away. -/
def World.migrateAll (w : World) : World := (w.updateData (migrate .one)).updateData (migrate .two)

/-- Of what is left to move, only a .layout_version can be in the way. -/
theorem Free.shared (hfree : Free w u) {m : SysId} (ht : w.data.tmp m = some t) :
    Shared (prepared w.data).active t := by
  intro n hn hnt
  obtain ⟨hmem, hempty⟩ := prepared_mem.mp hn
  rcases hfree.finish m t ht n hmem hnt with hlv | ⟨k, hk, hdir⟩
  · exact hlv
  · exact absurd hdir (hempty k hk)

/-- A move has been finished, and so nothing is left to migrate. -/
theorem Sealed.opens {m : SysId} {w₁ : World} (hw' : Sealed m t w₀ w w') (h : Clean w₀ w)
    (hd : w.data = prepared w₁.data) (hfree : Free w₁ u) (ht : w₁.data.tmp m = some t) :
    Open u w'.migrateAll := by
  have hlegacy : ∀ k, w'.data.legacyDir k = none := by
    intro k
    rw [Data.legacyDir, Finmap.lookup_eq_none.mpr]
    intro hn
    have hlv := hw'.active _ hn
    cases k <;> exact absurd hlv (by decide)
  have hsame : w'.migrateAll = w' := by
    rw [World.migrateAll, World.updateData, World.updateData, migrate_eq_self (hlegacy .one),
      migrate_eq_self (hlegacy .two)]
  rw [hsame]
  have hmine : ∀ k, Mine k w' := .of_versions hw'.active
  refine ⟨hw'.settled, fun s hs hmedia => ?_, fun _ s _ n hn _ => hw'.active n hn,
    fun _ _ => hmine _, fun _ => hmine _⟩
  rcases SysId.eq_or_other m u with rfl | rfl
  · obtain ⟨t', ht', hsub⟩ := hw'.sealed
    rw [ht', Option.some.injEq] at hs
    subst hs
    rcases hsub _ hmedia with hn | hn
    · exact h.noMedia hn
    · exact hfree.media t (.inr ht) hn
  · rw [hw'.other, hd, prepared_sealed] at hs
    refine hfree.media s (.inl ?_) hmedia
    split at hs
    · cases hs
    · next hne =>
        rw [Data.stored, if_neg, hs]
        rintro (hnone | hempty)
        · rw [hs] at hnone
          cases hnone
        · exact hne hempty

/-- No move was left to finish. -/
theorem Free.opens (hfree : Free w u) (hsettled : w.data.Settled)
    (hdata : w'.data = migrated w.data) (hwhose : w'.whose = w.whose) : Open u w' := by
  have hmine : ∀ {k}, Mine k w → Mine k w' := fun hk =>
    hk.mono (fun n hn => (migrated_mem (by rwa [← hdata])).1) hwhose
  have hsealed : ∀ k, w'.data.sealed k = w.data.stored k := fun k => by rw [hdata, migrated_sealed]
  refine ⟨?_, fun s hs => hfree.media s (.inl ?_), fun hother s hs n hn hns => ?_, ?_, ?_⟩
  · unfold Data.Settled
    rw [hdata, migrated_tmp]
    exact hsettled
  · rwa [← hsealed]
  · rw [hsealed] at hother hs
    rw [hdata] at hn
    obtain ⟨hmem, hnot⟩ := migrated_mem hn
    exact (hfree.unpack hsettled hother s hs n hmem hns).resolve_right hnot
  · rw [hsealed, hsealed]
    exact fun hother hu => hmine (hfree.mine _ (.pack hsettled hother hu))
  · rw [hsealed]
    exact fun hother => hmine (hfree.mine _ (.join hsettled hother))

/-- What system `u` has sealed can be unpacked beside the active entries. -/
structure Fits (u : SysId) (w : World) : Prop where
  media : ∀ s, w.data.sealed u = some s → "media" ∉ s
  shared : ∀ s, w.data.sealed u = some s → Shared w.data.active s
  mine : Mine u w

/-- A .tmp directory that is still there has nothing but a .layout_version. -/
def Emptied (d : Data) : Prop := ∀ m t, d.tmp m = some t → ∀ n ∈ t, n = layoutVersion

theorem Data.Settled.emptied (h : d.Settled) : Emptied d := by
  intro m t ht
  rw [h m] at ht
  cases ht

/-- System `u` is unpacked, and nothing of the other one is active. -/
structure Placed (u : SysId) (w : World) : Prop where
  emptied : Emptied w.data
  unpacked : w.data.sealed u = none
  mine : Mine u w

/-- Where system `k` belongs after a switch to `u`. -/
def Data.home (d : Data) (u k : SysId) : Option Entries :=
  if k = u then some d.active else d.sealed k

end Pisces.Dualboot
