import Pisces.Dualboot.Kept
import Pisces.Lib.Runs

/-!
# Dual data survives kills

Whatever commands run and wherever they are killed, the next `dualdata_open`
puts each system's entries together again: they are the active entries, or they
are in one of system-k and system-k.disabled. There is one way to lose an entry.
With both systems put away, a switch can make an empty .layout_version in /data;
if a later unpacking is killed before it has brought the system's own
.layout_version back, `dualdata_open` takes everything in /data for the rest of
the interrupted move and puts the empty file in the place of that one.
-/

namespace Pisces.Dualboot

open Pisces.Lib Pisces.Lib.Script

variable {o : SysId → Entries} {home : SysId → Place} {env : Env} {w : World}

def Safe (o : SysId → Entries) (d : Data) : Prop := ∃ home, Kept o home d

/-! ## Opening -/

theorem packSeal_kept {m : SysId} {t : Entries} (h : Kept o home w.data)
    (hno : NoClobber w.data) (ht : w.data.tmp m = some t) :
    (packAll m >>= fun _ => op (mvTmpSealed m)).wp
      (fun _ w' => w'.data.Settled ∧ w'.enabled = w.enabled ∧ w'.data.sealed m ≠ none ∧
        ∃ home' : SysId → Place, Kept o home' w'.data ∧ ∀ k, home' k ≠ .active)
      (fun _ w' => Safe o w'.data) w := by
  obtain ⟨hother, hsealed, -⟩ := h.alone m (by rw [ht]; exact Option.some_ne_none _)
  refine wp_mono (packSeal_spec ht hsealed) ?_ ?_
  · rintro _ _ ⟨a', t', cs, hpart, -, rfl⟩
    have hk := h.packing hno ht hpart
    obtain ⟨home', hkept, hnone⟩ := hk.sealTmp (Data.withMove_tmp ..)
      fun n hn => hpart.mem_of_done hn
    simp only [Data.withMove, Function.update_idem] at hkept
    refine ⟨?_, rfl, ?_, home', hkept, hnone⟩
    · unfold Data.Settled
      rw [SysId.forall_iff m]
      simp only [Function.update_self, Function.update_of_ne (SysId.other_ne m), true_and]
      exact hother
    · simp only [Function.update_self]
      exact Option.some_ne_none _
  · rintro _ _ ⟨-, rest, a', t', cs, hpart, -, rfl⟩
    exact ⟨home, h.packing hno ht hpart⟩

theorem finishMove_kept {m : SysId} (h : Kept o home w.data) (hno : NoClobber w.data) :
    (finishMove m).wp
      (fun _ w' => w.data.tmp m = none ∧ w' = w ∨
        w'.data.Settled ∧ w'.enabled = w.enabled ∧
          ∃ home' : SysId → Place, Kept o home' w'.data ∧ ∀ k, home' k ≠ .active)
      (fun _ w' => Safe o w'.data) w := by
  refine wp_when ?_ ?_
  · intro hsome
    obtain ⟨t, ht⟩ := Option.isSome_iff_exists.mp hsome
    refine wp_mono (packSeal_kept h hno ht) ?_ (fun _ _ hs => hs)
    rintro _ w' ⟨htmp, hen, -, hkept⟩
    exact .inr ⟨htmp, hen, hkept⟩
  · intro hnone
    exact .inl ⟨Option.not_isSome_iff_eq_none.mp (by rw [hnone]; exact Bool.false_ne_true), rfl⟩

/-- What `dualdata_open` leaves: no move under way, and `DUALDATA_ENABLED` as
the directories say. If it had no move to finish, it only removed the empty
directories. -/
structure Opened (o : SysId → Entries) (home : SysId → Place) (d : Data) (w' : World) : Prop where
  settled : w'.data.Settled
  enabled : w'.enabled = w'.data.hasSealed
  kept : (Kept o home w'.data ∧ w'.data = cleaned d) ∨
    ∃ home' : SysId → Place, Kept o home' w'.data ∧ ∀ k, home' k ≠ .active

theorem Opened.safe {d : Data} {w' : World} (h : Opened o home d w') : Safe o w'.data := by
  rcases h.kept with ⟨hk, -⟩ | ⟨home', hk, -⟩
  · exact ⟨home, hk⟩
  · exact ⟨home', hk⟩

theorem dualdataOpen_kept (hplain : Plain o) (h : Kept o home w.data) (hno : NoClobber w.data) :
    (dualdataOpen env).wp (fun _ w' => Opened o home w.data w') (fun _ w' => Safe o w'.data) w := by
  have h₁ := h.rmdirSealed hplain .one
  have h₂ : Kept o home (cleaned w.data) := h₁.rmdirSealed hplain .two
  refine dualdataOpen_rule (h.legacyDir_eq_none hplain) ?_ ?_ ?_
  · intro _ w' hw' _
    rw [hw'.data]
    exact ⟨home, h⟩
  · rintro w' - - (hw' | hw') <;> rw [hw']
    · exact ⟨home, h₁⟩
    · exact ⟨home, h₂⟩
  · rintro w' - - hw' hen
    have hk : Kept o home w'.data := by rw [hw']; exact h₂
    have hno' : NoClobber w'.data := by
      unfold NoClobber Data.clobbers
      rw [hw', cleaned_tmp, cleaned_active]
      exact hno
    -- the first of the moves that there is to finish leaves none for the second
    have hend : ∀ w'' : World, w''.data.Settled → w''.enabled = false →
        (Kept o home w''.data ∧ w''.data = cleaned w.data ∨
          ∃ home' : SysId → Place, Kept o home' w''.data ∧ ∀ k, home' k ≠ .active) →
        (∀ k, w''.data.legacyDir k = none) ∧ w''.enabled = false ∧ Safe o w''.data ∧
          Opened o home w.data { w'' with enabled := w''.data.hasSealed } := by
      intro w'' hsettled hen'' hkept
      have hopened : Opened o home w.data { w'' with enabled := w''.data.hasSealed } :=
        ⟨hsettled, rfl, hkept⟩
      obtain ⟨home', hk'⟩ := hopened.safe
      exact ⟨hk'.legacyDir_eq_none hplain, hen'', ⟨home', hk'⟩, hopened⟩
    rw [wp_forM_all]
    refine wp_mono (finishMove_kept hk hno') ?_ fun _ _ hs => hs
    rintro _ w₁ (⟨hone, rfl⟩ | ⟨hsettled, hen₁, hkept⟩)
    · refine wp_mono (finishMove_kept hk hno') ?_ fun _ _ hs => hs
      rintro _ w₂ (⟨htwo, rfl⟩ | ⟨hsettled, hen₂, hkept⟩)
      · exact hend w₂ ((SysId.forall_iff .one).mpr ⟨hone, htwo⟩) hen (.inl ⟨hk, hw'⟩)
      · exact hend w₂ hsettled (hen₂.trans hen) (.inr hkept)
    · refine wp_when ?_ fun _ => hend w₁ hsettled (hen₁.trans hen) (.inr hkept)
      intro hsome
      rw [hsettled .two] at hsome
      cases hsome

/-! ## Switching -/

/-- The active entries are packed for a system that they can belong to. -/
theorem pack_kept {p : SysId} (h : Kept o home w.data) (hsettled : w.data.Settled)
    (hother : w.data.sealed p = none → home p.other ≠ .active) :
    (pack p).wp
      (fun _ w' => w'.data.Settled ∧ w'.data.sealed p ≠ none ∧ Safe o w'.data)
      (fun _ w' => Safe o w'.data) w := by
  refine wp_when ?_ ?_
  · intro hnone
    have hsealed := Option.isNone_iff_eq_none.mp hnone
    have hmk : Kept o home (mkdirTmp p w.data) := by
      have hk := h.mkdirTmp hsettled hsealed (hother hsealed)
      rwa [mkdirTmp, hsettled p]
    have htmp : (mkdirTmp p w.data).tmp p = some ∅ := by
      rw [mkdirTmp, hsettled p]
      exact Function.update_self ..
    have hno : NoClobber (mkdirTmp p w.data) := by
      have hother := (hmk.alone p (by rw [htmp]; exact Option.some_ne_none _)).1
      unfold NoClobber Data.clobbers
      rw [SysId.forall_iff p, htmp, hother]
      simp only [Finmap.lookup_empty, and_true]
      split <;> simp_all
    refine ⟨⟨home, h⟩, ?_⟩
    refine wp_mono (packSeal_kept (w := w.updateData (mkdirTmp p)) hmk hno htmp) ?_ fun _ _ hs => hs
    rintro _ w' ⟨htmp', -, hsealed', home', hk', -⟩
    exact ⟨htmp', hsealed', home', hk'⟩
  · intro hsome
    refine ⟨hsettled, ?_, home, h⟩
    intro hnone
    rw [hnone] at hsome
    cases hsome

/-- With both sealed, or with nothing to unpack, what is in /data is in
nobody's way. -/
theorem unpack_kept {u : SysId} (hplain : Plain o) (h : Kept o home w.data)
    (hsettled : w.data.Settled) (hother : w.data.sealed u.other ≠ none) :
    (unpack u).wp (fun _ w' => Safe o w'.data) (fun _ w' => Safe o w'.data) w := by
  -- the second half, for any directory there is to unpack
  have hrest : ∀ w', Safe o w'.data → (when (fun w => (w.data.tmp u).isSome)
      (unpackAll u >>= fun _ => opData (rmdirTmp u))).wp
        (fun _ w' => Safe o w'.data) (fun _ w' => Safe o w'.data) w' := by
    rintro w' ⟨home', h'⟩
    refine wp_when ?_ fun _ => ⟨home', h'⟩
    intro hsome
    obtain ⟨t, ht⟩ := Option.isSome_iff_exists.mp hsome
    refine wp_mono (unpackRemove_spec ht (h'.noMedia hplain ht)) ?_ ?_
    · rintro _ _ ⟨a', t', cs, hpart, -, rfl⟩
      exact ⟨home', (h'.unpacking ht hpart).rmdirTmp u⟩
    · rintro _ _ ⟨-, rest, a', t', cs, hpart, -, rfl⟩
      exact ⟨home', h'.unpacking ht hpart⟩
  rw [unpack, wp_bind]
  refine wp_when ?_ fun _ => hrest w ⟨home, h⟩
  intro hcond
  obtain ⟨s, hs⟩ := Option.isSome_iff_exists.mp (Bool.and_eq_true_iff.mp hcond).1
  have hnone : ∀ k, home k ≠ .active := by
    rw [SysId.forall_iff u]
    constructor
    · intro hu
      rw [h.sealed_eq_none hu] at hs
      cases hs
    · exact fun hu => hother (h.sealed_eq_none hu)
  refine ⟨⟨home, h⟩, hrest _ ?_⟩
  have hk := h.unsealTmp hsettled hs hnone
  rw [World.updateData_data, mvSealedTmp, hs]
  exact hk

theorem createLayoutVersion_safe (hsafe : Safe o w.data) :
    (dualdataCreateLayoutVersion .active).wp (fun _ w' => Safe o w'.data)
      (fun _ w' => Safe o w'.data) w := by
  obtain ⟨home, h⟩ := hsafe
  refine wp_mono createLayoutVersion_spec ?_ ?_
  · rintro _ _ (⟨-, rfl⟩ | ⟨hnew, rfl⟩)
    · exact ⟨home, h⟩
    · exact ⟨home, h.insertActive hnew _⟩
  · rintro _ _ ⟨-, rfl⟩
    exact ⟨home, h⟩

theorem dualdataSwitchtodata_safe (hplain : Plain o) (which : Option SysId)
    (hsafe : Safe o w.data) (hsettled : w.data.Settled)
    (hen : w.enabled = true → w.data.hasSealed = true) :
    (dualdataSwitchtodata which).wp (fun _ w' => Safe o w'.data) (fun _ w' => Safe o w'.data)
      w := by
  obtain ⟨home, h⟩ := hsafe
  refine wp_when ?_ fun _ => ⟨home, h⟩
  intro henabled
  cases which with
  | none => exact ⟨home, h⟩
  | some u =>
      simp only [wp_bind]
      have hother : w.data.sealed u.other = none → home u.other.other ≠ .active := by
        intro hnone hu
        rw [SysId.other_other] at hu
        obtain ⟨k, hk⟩ := hasSealed_iff.mp (hen henabled)
        rcases SysId.eq_or_other u k with rfl | rfl
        · exact hk (h.sealed_eq_none hu)
        · exact hk hnone
      refine wp_mono (pack_kept h hsettled hother) ?_ fun _ _ hs => hs
      rintro _ w₁ ⟨hsettled₁, hsealed₁, home₁, h₁⟩
      refine wp_mono (unpack_kept hplain h₁ hsettled₁ hsealed₁) ?_ fun _ _ hs => hs
      intro _ w₂ hsafe₂
      exact createLayoutVersion_safe hsafe₂

/-! ## Enabling and disabling -/

theorem noClobber_of_settled {d : Data} (h : d.Settled) : NoClobber d := by
  intro m
  rw [Data.clobbers, h m]

/-- After any opening, a switch. -/
theorem Opened.switch_safe {d : Data} {w' : World} (hplain : Plain o) (h : Opened o home d w')
    (which : Option SysId) :
    (dualdataSwitchtodata which >>= fun _ => dualdataClose).wp (fun _ w' => Safe o w'.data)
      (fun _ w' => Safe o w'.data) w' := by
  rw [wp_bind]
  refine wp_mono (dualdataSwitchtodata_safe hplain which h.safe h.settled ?_) ?_ fun _ _ hs => hs
  · intro hen
    rw [← h.enabled, hen]
  · exact fun _ w'' hs => dualdataClose_keeps (P := fun d _ _ _ => Safe o d) w'' hs

theorem dualdataReopen_kept (hplain : Plain o) (h : Kept o home w.data)
    (hsettled : w.data.Settled) :
    (dualdataReopen env).wp (fun _ w' => Opened o home w.data w') (fun _ w' => Safe o w'.data)
      w := by
  rw [dualdataReopen, wp_bind]
  exact ⟨⟨home, h⟩, dualdataOpen_kept hplain h (noClobber_of_settled hsettled)⟩

theorem dualdataDisable_safe (hplain : Plain o) (h : Kept o home w.data)
    (hsettled : w.data.Settled) :
    (dualdataDisable env).wp (fun _ w' => w'.data.Settled ∧ Safe o w'.data)
      (fun _ w' => Safe o w'.data) w := by
  have htmp : ∀ k d, (disableSealed k d).tmp = d.tmp := by
    intro k d
    unfold disableSealed
    split <;> rfl
  obtain ⟨home₁, h₁⟩ := h.disableSealed .one
  obtain ⟨home₂, h₂⟩ := h₁.disableSealed .two
  have hsettled₂ : (disableSealed .two (disableSealed .one w.data)).Settled := by
    unfold Data.Settled
    rw [htmp, htmp]
    exact hsettled
  rw [dualdataDisable, wp_bind, wp_forM_all]
  simp only [wp_opData]
  refine ⟨⟨home, h⟩, ⟨home₁, h₁⟩, ?_⟩
  refine wp_mono (@dualdataReopen_kept _ _ _ ((w.updateData _).updateData _) hplain h₂ hsettled₂)
    ?_ fun _ _ hs => hs
  exact fun _ w' hopen => ⟨hopen.settled, hopen.safe⟩

/-- No sealed directory at all, and nobody's entries outside. -/
theorem Kept.all_disabled {d : Data} (h : Kept o home d) (hnone : ∀ k, d.sealed k = none)
    (hactive : ∀ k, home k ≠ .active) : ∀ k, home k = .disabled := by
  intro k
  have hatk := h.atHome k
  rw [hnone k] at hatk
  cases hk : home k with
  | active => exact absurd hk (hactive k)
  | sealed =>
      rw [hk] at hatk
      obtain ⟨⟨c, hc, -⟩, -⟩ := hatk
      cases hc
  | disabled => rfl

theorem Holds.insert_scrap {c : Entries} (h : Holds c ∅) (v : Node) :
    Holds (c.insert layoutVersion v) ∅ := by
  rw [Holds.empty_iff] at h ⊢
  intro n hn
  rcases Finmap.mem_insert.mp hn with hn | hn
  · exact hn
  · exact h n hn

/-- The new data of a system that has its own in system-k.disabled. -/
theorem createSealed_safe {k : SysId} {c : Entries} (h : Kept o home w.data)
    (hsettled : w.data.Settled) (hk : home k = .disabled) (hc : w.data.sealed k = some c) :
    (dualdataCreateLayoutVersion (.sealed k)).wp
      (fun _ w' => w'.data.Settled ∧ Safe o w'.data) (fun _ w' => Safe o w'.data) w := by
  have hinsert : ∀ (d : Data) (c' : Entries) (v : Node), Kept o home d → d.Settled →
      d.sealed k = some c' →
      (d.insertAt (.sealed k) layoutVersion v).Settled ∧
      (d.insertAt (.sealed k) layoutVersion v).sealed k = some (c'.insert layoutVersion v) ∧
      Kept o home (d.insertAt (.sealed k) layoutVersion v) := by
    intro d c' v h' hsettled' hc'
    have hatk := h'.atHome k
    rw [hk, hc'] at hatk
    rw [Data.insertAt]
    simp only [hc']
    exact ⟨hsettled', Function.update_self ..,
      h'.insertScrap hsettled' hk ((hatk.1 c' rfl).insert_scrap v)⟩
  refine wp_when (fun _ => wp_branch (fun _ => ?_) fun _ => ?_) fun _ => ⟨hsettled, home, h⟩
  · rw [wp_bind, wp_get, wp_bind]
    generalize (w.data.active.lookup layoutVersion).getD (.file "") = v
    obtain ⟨hsettled₁, hc₁, h₁⟩ := hinsert w.data c v.created h hsettled hc
    obtain ⟨hsettled₂, -, h₂⟩ := hinsert _ _ v h₁ hsettled₁ hc₁
    exact ⟨⟨home, h⟩, ⟨home, h₁⟩, hsettled₂, home, h₂⟩
  · obtain ⟨hsettled₁, -, h₁⟩ := hinsert w.data c (.file "") h hsettled hc
    exact ⟨⟨home, h⟩, hsettled₁, home, h₁⟩

/-- Who is still disabled after the renames has a system-k in the way. -/
theorem enableAll_kept {d : Data} (h : Kept o home d) (hsettled : d.Settled) :
    ∃ home', Kept o home' (enableSealed .two (enableSealed .one d)) ∧
      (enableSealed .two (enableSealed .one d)).Settled ∧
      (∀ k, home' k = .disabled →
        (enableSealed .two (enableSealed .one d)).sealed k = d.sealed k ∧ d.sealed k ≠ none) ∧
      ∀ k, home' k = .active → home k = .active := by
  obtain ⟨home₁, h₁, hset₁, hsame₁, hhome₁, hact₁, hdis₁⟩ := h.enableSealed hsettled .one
  obtain ⟨home₂, h₂, hset₂, hsame₂, hhome₂, hact₂, hdis₂⟩ := h₁.enableSealed hset₁ .two
  refine ⟨home₂, h₂, hset₂, fun k hk => ?_, fun k hk => ?_⟩
  · cases k with
    | one =>
        obtain ⟨heq, hne⟩ := hdis₁ (hhome₂.symm.trans hk)
        exact ⟨hsame₂.trans heq, hne⟩
    | two =>
        obtain ⟨heq, hne⟩ := hdis₂ hk
        exact ⟨heq.trans hsame₁, fun hnone => hne (hsame₁.trans hnone)⟩
  · cases k with
    | one => exact hact₁.mp (hhome₂.symm.trans hk)
    | two => exact hhome₁.symm.trans (hact₂.mp hk)

/-- If an opening finds nothing sealed, everybody is disabled. -/
theorem Opened.all_disabled {d : Data} (h : Opened o home d w)
    (hnone : ∀ k, w.data.sealed k = none)
    (hblocked : ∀ k, home k = .active → home k.other = .disabled →
      d.sealed k.other ≠ none ∧ d.sealed k.other ≠ some ∅) :
    ∃ home', Kept o home' w.data ∧ ∀ k, home' k = .disabled := by
  rcases h.kept with ⟨hkept, heq⟩ | ⟨home', hkept, hno⟩
  · refine ⟨home, hkept, hkept.all_disabled hnone fun k hk => ?_⟩
    have hother : home k.other = .disabled := by
      have hatk := hkept.atHome k.other
      cases hk' : home k.other with
      | active => exact absurd hk' (hkept.apart k hk)
      | sealed =>
          rw [hk', hnone] at hatk
          obtain ⟨⟨c, hc, -⟩, -⟩ := hatk
          cases hc
      | disabled => rfl
    obtain ⟨hsome, hne⟩ := hblocked k hk hother
    have hgone := hnone k.other
    rw [heq, cleaned_sealed, if_neg hne] at hgone
    exact hsome hgone
  · exact ⟨home', hkept, hkept.all_disabled hnone hno⟩

/-- Either somebody's data comes back from a .disabled directory, and then dual
data is on, or all of it stays where it is. -/
theorem dualdataEnable_safe (hplain : Plain o) (h : Kept o home w.data)
    (hsettled : w.data.Settled)
    (hclean : (∃ j, home j = .active) → ∀ k, w.data.sealed k ≠ some ∅) (hint : Option SysId) :
    (dualdataEnable env hint).wp (fun _ w' => w'.data.Settled ∧ Safe o w'.data)
      (fun _ w' => Safe o w'.data) w := by
  obtain ⟨home₁, h₁, -⟩ := h.enableSealed hsettled .one
  obtain ⟨home₂, h₂, hset₂, hblocked, hactive⟩ := enableAll_kept h hsettled
  rw [dualdataEnable, wp_bind, wp_forM_all]
  simp only [wp_opData]
  refine ⟨⟨home, h⟩, ⟨home₁, h₁⟩, ?_⟩
  rw [wp_bind]
  refine wp_mono (@dualdataReopen_kept _ _ _ ((w.updateData _).updateData _) hplain h₂ hset₂)
    ?_ fun _ _ hs => hs
  intro _ w' hopen
  refine wp_branch (fun _ => ⟨hopen.settled, hopen.safe⟩) ?_
  intro hoff
  have hnone : ∀ k, w'.data.sealed k = none := by
    intro k
    by_contra hk
    have hon := hasSealed_iff.mpr ⟨k, hk⟩
    rw [← hopen.enabled, hoff] at hon
    cases hon
  obtain ⟨home', hk', hdisabled⟩ := hopen.all_disabled hnone fun k hk hother => by
    obtain ⟨hsame, hne⟩ := hblocked _ hother
    rw [World.updateData_data, World.updateData_data, hsame]
    exact ⟨hne, hclean ⟨k, hactive k hk⟩ _⟩
  rw [wp_bind, wp_get, wp_bind]
  generalize (currentSysId env hint w'.data).other = new
  have hmk : mkdirSealed new w'.data =
      { w'.data with sealed := Function.update w'.data.sealed new (some ∅) } := by
    rw [mkdirSealed, hnone new]
    rfl
  have hk₁ : Kept o home' (mkdirSealed new w'.data) := by
    rw [hmk]
    exact hk'.insertScrap hopen.settled (hdisabled new) (Holds.refl ∅)
  refine ⟨⟨home', hk'⟩, createSealed_safe (c := ∅) hk₁ ?_ (hdisabled new) ?_⟩
  · exact hopen.settled
  · rw [World.updateData_data, hmk]
    exact Function.update_self ..

/-! ## Runs of commands -/

theorem bootInto_safe (hplain : Plain o) (h : Kept o home w.data) (hno : NoClobber w.data)
    (which : Option SysId) :
    (bootInto env which).wp (fun _ w' => Safe o w'.data) (fun _ w' => Safe o w'.data) w := by
  have hsame : ∀ w' : World, w'.data = w.data → Safe o w'.data :=
    fun w' hw' => ⟨home, by rw [hw']; exact h⟩
  rw [bootInto, wp_bind]
  refine wp_mono (dualbootHacknodes_keeps (P := fun d _ _ _ => d = w.data) which w rfl) ?_
    fun _ w' => hsame w'
  intro _ w₁ hw₁
  rw [wp_bind]
  refine wp_mono (mountData_keeps (P := fun d _ _ _ => d = w.data) w₁ hw₁) ?_ fun _ w' => hsame w'
  intro _ w₂ hw₂
  rw [wp_bind]
  have h₂ : Kept o home w₂.data := by rwa [hw₂]
  refine wp_mono (dualdataOpen_kept hplain h₂ (by rwa [hw₂])) ?_ fun _ _ hs => hs
  exact fun _ w₃ hopen => hopen.switch_safe hplain which

/-- What an opening leaves is clean enough to enable dual data. -/
theorem Opened.enable_safe {d : Data} {w' : World} (hplain : Plain o) (h : Opened o home d w')
    (which : Option SysId) :
    (dualdataEnable env which).wp (fun _ w' => w'.data.Settled ∧ Safe o w'.data)
      (fun _ w' => Safe o w'.data) w' := by
  rcases h.kept with ⟨hk, heq⟩ | ⟨home', hk', hno⟩
  · refine dualdataEnable_safe hplain hk h.settled (fun _ k => ?_) which
    rw [heq, cleaned_sealed]
    split
    · exact nofun
    · next hne => exact hne
  · exact dualdataEnable_safe hplain hk' h.settled (fun ⟨j, hj⟩ => absurd hj (hno j)) which

theorem mountOpen_kept (hplain : Plain o) (h : Kept o home w.data) (hno : NoClobber w.data) :
    (mountData env).wp (fun _ w' => (dualdataOpen env).wp (fun _ w'' => Opened o home w.data w'')
      (fun _ w'' => Safe o w''.data) w') (fun _ w' => Safe o w'.data) w := by
  refine wp_mono (mountData_keeps (P := fun d _ _ _ => d = w.data) w rfl) ?_ ?_
  · intro _ w₁ hw₁
    rw [← hw₁] at h hno ⊢
    exact dualdataOpen_kept hplain h hno
  · intro _ w₁ hw₁
    exact ⟨home, by rwa [hw₁]⟩

theorem command_safe (hplain : Plain o) (h : Kept o home w.data) (hno : NoClobber w.data)
    (c : Command) :
    (c.script env).wp (fun _ w' => Safe o w'.data) (fun _ w' => Safe o w'.data) w := by
  have hset : ∀ which, (dualbootWrite env which >>= fun ok => require ok >>= fun _ =>
      bootInto env which).wp (fun _ w' => Safe o w'.data) (fun _ w' => Safe o w'.data) w := by
    intro which
    rw [wp_bind]
    refine wp_mono (dualbootWrite_keeps (P := fun d _ _ => d = w.data) which w rfl) ?_ ?_
    · intro ok w₁ hw₁
      rw [wp_bind]
      rw [← hw₁] at h hno
      exact wp_require (fun _ => bootInto_safe hplain h hno which) fun _ => ⟨home, h⟩
    · intro _ w₁ hw₁
      exact ⟨home, by rwa [hw₁]⟩
  cases c with
  | set which => exact hset which
  | save which => exact hset which
  | get =>
      show (dualdataOpen env >>= fun _ => dualdataClose).wp _ _ w
      rw [wp_bind]
      refine wp_mono (dualdataOpen_kept hplain h hno) ?_ fun _ _ hs => hs
      exact fun _ w₁ hopen => dualdataClose_keeps (P := fun d _ _ _ => Safe o d) w₁ hopen.safe
  | load =>
      show (get (fun w : World => dualbootRead w.misc) >>= fun which =>
        bootInto env (some which)).wp _ _ w
      rw [wp_bind, wp_get]
      exact bootInto_safe hplain h hno _
  | enabledualdata which =>
      simp only [Command.script, recoveryEnabledualdata, wp_bind]
      refine wp_mono (mountOpen_kept hplain h hno) ?_ fun _ _ hs => hs
      intro _ w₁ hw₁
      refine wp_mono hw₁ ?_ fun _ _ hs => hs
      intro _ w₂ hopen
      refine wp_mono (hopen.enable_safe hplain which) ?_ fun _ _ hs => hs
      rintro _ w₃ ⟨hsettled, home₃, h₃⟩
      refine wp_mono (dualdataReopen_kept hplain h₃ hsettled) ?_ fun _ _ hs => hs
      intro _ w₄ hopen₄
      rw [← wp_bind]
      exact hopen₄.switch_safe hplain which
  | disabledualdata =>
      simp only [Command.script, recoveryDisabledualdata, wp_bind]
      refine wp_mono (mountOpen_kept hplain h hno) ?_ fun _ _ hs => hs
      intro _ w₁ hw₁
      refine wp_mono hw₁ ?_ fun _ _ hs => hs
      intro _ w₂ hopen
      obtain ⟨home₂, h₂⟩ := hopen.safe
      refine wp_mono (dualdataDisable_safe hplain h₂ hopen.settled) ?_ fun _ _ hs => hs
      rintro _ w₃ ⟨hsettled, home₃, h₃⟩
      refine wp_mono (dualdataReopen_kept hplain h₃ hsettled) ?_ fun _ _ hs => hs
      exact fun _ w₄ hopen₄ => dualdataClose_keeps (P := fun d _ _ _ => Safe o d) w₄ hopen₄.safe

/-- One command, with what it finds outside and how far it gets. -/
structure Call where
  env : Env
  budget : Option Nat
  cmd : Command

def step (w : World) (c : Call) : Option World := some (exec c.env c.budget c.cmd w).state

/-- Dual data is on and clean: system-q has its entries, the other system's are
active, and there is no other directory. -/
structure Start (o : SysId → Entries) (q : SysId) (d : Data) : Prop where
  plain : Plain o
  active : d.active = o q.other
  sealed : d.sealed q = some (o q)
  other : d.sealed q.other = none
  tmp : ∀ k, d.tmp k = none
  disabled : ∀ k, d.disabled k = none

theorem Start.kept {q : SysId} {d : Data} (h : Start o q d) :
    Kept o (fun k => if k = q then .sealed else .active) d := by
  have hne := SysId.other_ne q
  have hapart : ∀ k, (if k = q then Place.sealed else .active) = .active →
      (if k.other = q then Place.sealed else .active) ≠ .active := by
    rw [SysId.forall_iff q, if_pos rfl, SysId.other_other, if_pos rfl]
    exact ⟨nofun, fun _ => nofun⟩
  refine .ofSettled hapart ?_ h.tmp ?_
  · rw [SysId.forall_iff q, if_pos rfl, if_neg hne]
    exact ⟨⟨⟨o q, h.sealed, .refl _⟩, h.disabled q⟩, h.other, h.disabled _⟩
  · rw [out_of_active hapart (k := q.other) (if_neg hne), h.active]
    exact .refl _

theorem exec_safe (hplain : Plain o) (hsafe : Safe o w.data) (hno : NoClobber w.data) (c : Call) :
    Safe o (exec c.env c.budget c.cmd w).state.data := by
  obtain ⟨home, h⟩ := hsafe
  exact run_state (@command_safe o home c.env (w.start c.env) hplain h hno c.cmd) c.budget

theorem safe_reachable {q : SysId} {w₀ : World} {calls : List Call} (hstart : Start o q w₀.data)
    (hrun : Run step (fun w _ => NoClobber w.data) w₀ calls w) : Safe o w.data := by
  refine hrun.invariant (I := fun w => Safe o w.data) ⟨_, hstart.kept⟩ ?_
  intro w c w' hsafe hno hstep
  rw [step, Option.some.injEq] at hstep
  rw [← hstep]
  exact exec_safe hstart.plain hsafe hno c

def Data.place (d : Data) (k : SysId) : Place → Option Entries
  | .active => some d.active
  | .sealed => d.sealed k
  | .disabled => d.disabled k

/-- No entry of `o` is lost, and those of each system are in one place, which
has nothing of the other's: the two are not both active, and a directory that is
not a system's place has at most a .layout_version. -/
def Together (o : SysId → Entries) (d : Data) : Prop :=
  d.Settled ∧ ∃ home : SysId → Place,
    (∀ k, home k = .active → home k.other ≠ .active) ∧
    (∀ k, ∃ c, d.place k (home k) = some c ∧ Holds c (o k)) ∧
    ∀ k p c, d.place k p = some c → p ≠ home k → (p = .active → ∀ j, home j ≠ .active) → Holds c ∅

theorem Kept.together {d : Data} (h : Kept o home d) (hsettled : d.Settled) : Together o d := by
  refine ⟨hsettled, home, h.apart, fun k => ?_, fun k p c hc hp hnone => ?_⟩
  · have hatk := h.atHome k
    cases hk : home k with
    | active =>
        have hset := h.settled hsettled
        rw [out_of_active h.apart hk] at hset
        exact ⟨_, rfl, hset⟩
    | sealed =>
        rw [hk] at hatk
        exact hatk.1
    | disabled =>
        rw [hk] at hatk
        exact hatk.2
  · have hatk := h.atHome k
    cases p with
    | active =>
        cases hc
        exact h.active_scrap hsettled (hnone rfl)
    | sealed =>
        change d.sealed k = some c at hc
        rw [hc] at hatk
        cases hk : home k <;> rw [hk] at hatk
        · cases hatk.1
        · exact absurd hk.symm hp
        · exact hatk.1 c rfl
    | disabled =>
        change d.disabled k = some c at hc
        rw [hc] at hatk
        cases hk : home k <;> rw [hk] at hatk
        · cases hatk.2
        · cases hatk.2
        · exact absurd hk.symm hp

/-- After any run of commands, killed wherever one likes, in which no command
starts with a .layout_version about to be replaced by the move it has to finish,
the next `dualdata_open` completes if nobody kills it, and whenever it completes
the entries of each system are together. -/
theorem dualdata_crash_safe {q : SysId} {w₀ w₁ : World} {calls : List Call}
    (hstart : Start o q w₀.data) (hrun : Run step (fun w _ => NoClobber w.data) w₀ calls w)
    (hno : NoClobber w.data) (hw₁ : w₁.data = w.data) :
    (¬ Blocked env w₁ → ∃ w', (dualdataOpen env).run none w₁ = .done () w') ∧
    ∀ budget w', (dualdataOpen env).run budget w₁ = .done () w' → Together o w'.data := by
  obtain ⟨home, h⟩ := safe_reachable hstart hrun
  rw [← hw₁] at h hno
  constructor
  · intro hblocked
    obtain ⟨_, w', hdone, -⟩ := run_none_done dualdataOpen_noExit hblocked
    exact ⟨w', hdone⟩
  · intro budget w' hdone
    have hopened := run_meets (@dualdataOpen_kept o home env w₁ hstart.plain h hno) budget
    rw [hdone] at hopened
    obtain ⟨home', h'⟩ := hopened.safe
    exact h'.together hopened.settled

/-! ## Examples of runs -/

/-- Every external command succeeds. -/
def allWorks : Env := { mounted := true, syspart := .one, fails := fun _ => false }

/-- Two systems with an app each; system 1's is active. -/
def twoSystems : SysId → Entries
  | .one => .ofList [("app", .file "one"), (layoutVersion, .file "1")]
  | .two => .ofList [("app", .file "two"), (layoutVersion, .file "1")]

def twoSystemsWorld : World where
  data :=
    { active := twoSystems .one
      sealed := fun | .one => none | .two => some (twoSystems .two)
      tmp := fun _ => none
      disabled := fun _ => none }
  misc := fun _ => 0
  nodes := fun _ => none
  mounted := false
  enabled := false
  binds := 0
  clashes := []
  whose := fun _ => .one

theorem twoSystems_start : Start twoSystems .two twoSystemsWorld.data where
  plain :=
    { nonempty := fun k => by cases k <;> decide
      noMedia := fun k => by cases k <;> decide
      noLegacy := fun k j => by cases k <;> cases j <;> decide }
  active := rfl
  sealed := rfl
  other := rfl
  tmp := fun _ => rfl
  disabled := fun _ => rfl

def Call.of (cmd : Command) (budget : Option Nat) : Call := ⟨allWorks, budget, cmd⟩

/-- A switch to system 2, killed when it has packed the app and not yet
.layout_version. -/
def killedPacking : World := (exec allWorks (some 16) (.set (some .two)) twoSystemsWorld).state

theorem dualdata_crash_safe_packing :
    (killedPacking.data.tmp .one).isSome = true ∧
    ∃ w', (dualdataOpen allWorks).run none (killedPacking.start allWorks) = .done () w' ∧
      Together twoSystems w'.data := by
  have hno : NoClobber twoSystemsWorld.data := fun _ => rfl
  have hno' : NoClobber killedPacking.data := fun m => by cases m <;> decide
  have hrun : Run step (fun w _ => NoClobber w.data) twoSystemsWorld
      [.of (.set (some .two)) (some 16)] killedPacking := .snoc .nil hno rfl
  have hall := fun env => @dualdata_crash_safe _ env _ _ _ (killedPacking.start env) _
    twoSystems_start hrun hno' rfl
  obtain ⟨hends, htogether⟩ := hall allWorks
  obtain ⟨w', hw'⟩ := hends (by rintro (hno | hno) <;> cases hno)
  exact ⟨by decide, w', hw', htogether none w' hw'⟩

/-- Both systems are put away when a switch is killed; dual data is half
disabled; a switch that finds nothing to unpack makes an empty .layout_version;
and enabling dual data again is killed when it has brought back the app. -/
def loseVersion : List Call :=
  [.of (.set (some .two)) (some 15), .of .disabledualdata (some 12), .of (.set (some .one)) none,
    .of (.enabledualdata (some .one)) (some 28)]

def afterCalls (w : World) (calls : List Call) : World :=
  calls.foldl (fun w c => (exec c.env c.budget c.cmd w).state) w

theorem run_afterCalls (w : World) (calls : List Call) :
    Run step always w calls (afterCalls w calls) := by
  refine Run.of_runEvents (fun _ _ _ => trivial) ?_
  induction calls generalizing w with
  | nil => rfl
  | cons c cs ih => exact ih _

/-- What the next `dualdata_open` makes of it. -/
def lostVersion : World :=
  ((dualdataOpen allWorks).run none ((afterCalls twoSystemsWorld loseVersion).start allWorks)).state

/-- It overwrites the .layout_version of system 1. -/
theorem layoutVersion_overwritten :
    ∃ w w', Start twoSystems .two twoSystemsWorld.data ∧
      Run step always twoSystemsWorld loseVersion w ∧
      (dualdataOpen allWorks).run none (w.start allWorks) = .done () w' ∧
      (twoSystems .one).lookup layoutVersion = some (.file "1") ∧
      w'.data.sealed .one = some (.ofList [("app", .file "one"), (layoutVersion, .file "")]) ∧
      ¬ Together twoSystems w'.data := by
  have hdone : ((dualdataOpen allWorks).run none
      ((afterCalls twoSystemsWorld loseVersion).start allWorks)).isDone = true := by decide +kernel
  have hversion : (twoSystems .one).lookup layoutVersion = some (.file "1") := by decide +kernel
  have hsealed : lostVersion.data.sealed .one =
      some (.ofList [("app", .file "one"), (layoutVersion, .file "")]) := by decide +kernel
  refine ⟨_, lostVersion, twoSystems_start, run_afterCalls _ _, Outcome.eq_done hdone, hversion,
    hsealed, ?_⟩
  rintro ⟨-, home, -, hkept, -⟩
  obtain ⟨c, hc, hholds⟩ := hkept .one
  have hlv := hholds.kept layoutVersion (.file "1") hversion
  cases hhome : home .one <;> rw [hhome, Data.place] at hc
  · have hactive : lostVersion.data.active.lookup layoutVersion = none := by decide +kernel
    rw [Option.some.injEq] at hc
    rw [← hc, hactive] at hlv
    cases hlv
  · rw [hsealed, Option.some.injEq] at hc
    subst hc
    exact absurd hlv (by decide)
  · have hdisabled : lostVersion.data.disabled .one = none := by decide +kernel
    rw [hdisabled] at hc
    cases hc

end Pisces.Dualboot
