import Pisces.Dualboot.Moves

/-!
# Rules for the parts of a command

Most of a command does not touch /data: the bootmark, the device nodes and the
mounts are other stores. And most of `dualdata_open` does nothing when there is
no legacy directory: it removes empty sealed directories, finishes a move if
there is one, and sees which sealed directories there are.
-/

namespace Pisces.Dualboot

open Pisces.Lib Pisces.Lib.Script

variable {env : Env} {w : World} {Q : Unit → World → Prop} {C : Stop → World → Prop}

/-- Both ids in turn. -/
theorem wp_forM_all {f : SysId → Script World Unit} :
    (forM SysId.all f).wp Q C w ↔ (f .one).wp (fun _ w' => (f .two).wp Q C w') C w := by
  rw [SysId.all, List.forM_cons, List.forM_cons, List.forM_nil]
  simp only [wp_bind, wp_pure]

theorem wp_opData {f : Data → Data} :
    (opData f).wp Q C w ↔ C .killed w ∧ Q () (w.updateData f) := Iff.rfl

def Data.Settled (d : Data) : Prop := ∀ m, d.tmp m = none

/-! ## The scripts that leave /data alone -/

section Keeps

variable {P : Data → (Nat → UInt8) → List Name → (Name → SysId) → Prop}

theorem mknod_keeps (part minor : Nat) :
    Keeps (fun w => P w.data w.misc w.clashes w.whose) (mknod env part minor) :=
  .bind (.require _) fun _ => .op fun _ h => h

theorem dualbootHacknodes_keeps (which : Option SysId) :
    Keeps (fun w => P w.data w.misc w.clashes w.whose) (dualbootHacknodes env which) := by
  rcases which with _ | _ | _
  · exact .pure ()
  all_goals
    exact .bind (.op fun _ h => h) fun _ => .bind (mknod_keeps _ _) fun _ =>
      .bind (mknod_keeps _ _) fun _ => .bind (mknod_keeps _ _) fun _ => mknod_keeps _ _

theorem mountData_keeps : Keeps (fun w => P w.data w.misc w.clashes w.whose) (mountData env) :=
  .bind (.require _) fun _ => .op fun _ h => h

theorem dualdataClose_keeps : Keeps (fun w => P w.data w.misc w.clashes w.whose) dualdataClose :=
  .op fun _ h => h

theorem dualbootWrite_keeps {P : Data → List Name → (Name → SysId) → Prop}
    (which : Option SysId) :
    Keeps (fun w => P w.data w.clashes w.whose) (dualbootWrite env which) := by
  cases which with
  | none => exact .pure _
  | some k =>
      unfold dualbootWrite
      dsimp only
      split
      · exact .pure _
      · exact .bind (.op fun _ h => h) fun _ => .pure _

end Keeps

/-! ## Opening -/

/-- The two worlds differ at most in what the shell and the mounts know. -/
structure SameDisk (w w' : World) : Prop where
  data : w'.data = w.data
  misc : w'.misc = w.misc
  clashes : w'.clashes = w.clashes
  whose : w'.whose = w.whose

/-- What makes `dualdata_open` exit. -/
def Blocked (env : Env) (w : World) : Prop :=
  w.mounted = false ∨ env.fails (.bind w.binds) = true

theorem bindData_spec :
    (bindData env).wp (fun _ w' => SameDisk w w' ∧ w'.enabled = false ∧ ¬ Blocked env w)
      (fun why w' => SameDisk w w' ∧ (why = .exit → Blocked env w)) w := by
  have hsame : SameDisk w w := ⟨rfl, rfl, rfl, rfl⟩
  rw [bindData]
  simp only [wp_bind, wp_get, wp_op]
  refine wp_require
    (fun hmounted => ⟨⟨⟨rfl, rfl, rfl, rfl⟩, Stop.of_killed_eq_exit⟩, wp_require ?_ ?_⟩)
    fun hno => ⟨hsame, fun _ => .inl hno⟩
  · intro hbind
    rw [Bool.not_eq_true'] at hbind
    refine ⟨⟨⟨rfl, rfl, rfl, rfl⟩, Stop.of_killed_eq_exit⟩, ⟨rfl, rfl, rfl, rfl⟩, rfl, ?_⟩
    rintro (hno | hno)
    · rw [hmounted] at hno
      cases hno
    · rw [hbind] at hno
      cases hno
  · intro hbind
    rw [Bool.not_eq_false'] at hbind
    exact ⟨⟨rfl, rfl, rfl, rfl⟩, fun _ => .inr hbind⟩

/-- `rmdir system-[12]` -/
def cleaned (d : Data) : Data := rmdirSealed .two (rmdirSealed .one d)

@[simp] theorem rmdirSealed_tmp (k : SysId) (d : Data) : (rmdirSealed k d).tmp = d.tmp := by
  unfold rmdirSealed
  split <;> rfl

@[simp] theorem rmdirSealed_active (k : SysId) (d : Data) :
    (rmdirSealed k d).active = d.active := by
  unfold rmdirSealed
  split <;> rfl

theorem rmdirSealed_self (k : SysId) (d : Data) :
    (rmdirSealed k d).sealed k = if d.sealed k = some ∅ then none else d.sealed k := by
  unfold rmdirSealed
  split
  · exact Function.update_self ..
  · rfl

theorem rmdirSealed_of_ne {j k : SysId} (hk : k ≠ j) (d : Data) :
    (rmdirSealed j d).sealed k = d.sealed k := by
  unfold rmdirSealed
  split
  · exact Function.update_of_ne hk _ _
  · rfl

theorem cleaned_sealed (d : Data) (k : SysId) :
    (cleaned d).sealed k = if d.sealed k = some ∅ then none else d.sealed k := by
  unfold cleaned
  cases k with
  | one => rw [rmdirSealed_of_ne (by decide), rmdirSealed_self]
  | two => rw [rmdirSealed_self, rmdirSealed_of_ne (by decide)]

@[simp] theorem cleaned_tmp (d : Data) : (cleaned d).tmp = d.tmp := by
  rw [cleaned, rmdirSealed_tmp, rmdirSealed_tmp]

@[simp] theorem cleaned_active (d : Data) : (cleaned d).active = d.active := by
  rw [cleaned, rmdirSealed_active, rmdirSealed_active]

theorem legacyDir_congr {d d' : Data} (h : d'.active = d.active) (k : SysId) :
    d'.legacyDir k = d.legacyDir k := by
  rw [Data.legacyDir, Data.legacyDir, h]

theorem rmdirLegacy_skip {k : SysId} {d : Data} (hnone : d.legacyDir k = none) :
    rmdirLegacy k d = d := by
  rw [rmdirLegacy, hnone]

theorem dualdataMigrate_skip {k : SysId} (hnone : w.data.legacyDir k = none) (hQ : Q () w) :
    (dualdataMigrate k).wp Q C w := by
  refine wp_when ?_ (fun _ => hQ)
  intro hsome
  rw [hnone] at hsome
  cases hsome

theorem finishMove_skip {m : SysId}
    (hnone : w.data.tmp m = none) (hQ : Q () w) : (finishMove m).wp Q C w := by
  refine wp_when ?_ fun _ => hQ
  intro hsome
  rw [hnone] at hsome
  cases hsome

/-- `dualdata_open` without legacy directories. What is left to show is about
the moves it finishes. -/
theorem dualdataOpen_rule (hlegacy : ∀ k, w.data.legacyDir k = none)
    (hstop : ∀ why w', SameDisk w w' → (why = .exit → Blocked env w) → C why w')
    (hclean : ∀ w', w'.misc = w.misc → w'.clashes = w.clashes →
      (w'.data = rmdirSealed .one w.data ∨ w'.data = cleaned w.data) → C .killed w')
    (hfinish : ∀ w', w'.misc = w.misc → w'.clashes = w.clashes → w'.data = cleaned w.data →
      w'.enabled = false →
      (forM SysId.all finishMove).wp (fun _ w'' => (∀ k, w''.data.legacyDir k = none) ∧
        w''.enabled = false ∧ C .killed w'' ∧ Q () { w'' with enabled := w''.data.hasSealed })
        C w') :
    (dualdataOpen env).wp Q C w := by
  rw [dualdataOpen, wp_bind]
  refine wp_mono bindData_spec ?_ fun why w' hw' => hstop why w' hw'.1 hw'.2
  rintro _ w₁ ⟨hw₁, hen, -⟩
  have hlegacy₁ : ∀ k, (cleaned w₁.data).legacyDir k = none := by
    intro k
    rw [legacyDir_congr (cleaned_active _), hw₁.data]
    exact hlegacy k
  have hrmdir : ∀ {k}, rmdirLegacy k (cleaned w₁.data) = cleaned w₁.data :=
    rmdirLegacy_skip (hlegacy₁ _)
  have hclean₂ := hclean { w₁ with data := cleaned w₁.data } hw₁.misc hw₁.clashes
    (.inr (by rw [hw₁.data]))
  rw [wp_bind, wp_forM_all]
  refine ⟨hstop _ w₁ hw₁ Stop.of_killed_eq_exit, hclean _ hw₁.misc hw₁.clashes (.inl ?_), ?_⟩
  · exact congrArg (rmdirSealed .one) hw₁.data
  show Script.wp _ Q C { w₁ with data := cleaned w₁.data }
  rw [wp_bind, wp_forM_all]
  simp only [opData, wp_op, World.updateData, hrmdir]
  refine ⟨hclean₂, hclean₂, ?_⟩
  rw [wp_bind]
  refine wp_mono (hfinish { w₁ with data := cleaned w₁.data } hw₁.misc hw₁.clashes
    (by rw [hw₁.data]) hen) ?_ fun _ _ h => h
  rintro _ w₂ ⟨hlegacy₂, hen₂, hC, hQ⟩
  rw [wp_bind, wp_forM_all]
  refine dualdataMigrate_skip (hlegacy₂ _) (dualdataMigrate_skip (hlegacy₂ _) (wp_when ?_ ?_))
  · intro hsome
    rw [hsome] at hQ
    exact ⟨hC, hQ⟩
  · intro hsome
    rw [hsome] at hQ
    rwa [← hen₂] at hQ

/-- Legacy directories or not, `dualdata_open` exits for no other reason. -/
theorem dualdataOpen_noExit :
    (dualdataOpen env).wp (fun _ _ => True) (fun why _ => why = .exit → Blocked env w) w := by
  have hrest : NoExit (do
      forM SysId.all fun k => opData (rmdirSealed k)
      forM SysId.all fun k => opData (rmdirLegacy k)
      forM SysId.all finishMove
      forM SysId.all dualdataMigrate
      when (fun w => w.data.hasSealed) (op fun w => { w with enabled := true })) := by
    refine .bind (.forM fun _ => .op _) fun _ => .bind (.forM fun _ => .op _) fun _ => ?_
    refine .bind (.forM fun _ => .when (.bind ?_ fun _ => .op _)) fun _ => ?_
    · exact .bind (.get _) fun _ => .forM fun _ => .op _
    · exact .bind (.forM fun _ => .when (.branch (.op _) (.op _))) fun _ => .when (.op _)
  rw [dualdataOpen, wp_bind]
  refine wp_mono bindData_spec (fun _ w' _ => ?_) fun _ _ h => h.2
  refine wp_mono (hrest w') (fun _ _ h => h) fun why _ hkilled hexit => ?_
  rw [hkilled] at hexit
  cases hexit

theorem hasSealed_iff {d : Data} : d.hasSealed = true ↔ ∃ k, d.sealed k ≠ none := by
  rw [Data.hasSealed, List.any_eq_true]
  constructor
  · rintro ⟨k, -, hk⟩
    exact ⟨k, Option.isSome_iff_ne_none.mp hk⟩
  · rintro ⟨k, hk⟩
    exact ⟨k, SysId.mem_all k, Option.isSome_iff_ne_none.mpr hk⟩

/-- `mv system-m.tmp system-m` with no system-m there. -/
theorem mvTmpSealed_eq {m : SysId} {t : Entries} (ht : w.data.tmp m = some t)
    (hs : w.data.sealed m = none) :
    mvTmpSealed m w = w.updateData fun d => { d with
      sealed := Function.update d.sealed m (some t)
      tmp := Function.update d.tmp m none } := by
  rw [mvTmpSealed, ht]
  simp only [hs]

theorem mvSealedTmp_eq {u : SysId} {s : Entries} (hs : w.data.sealed u = some s) :
    w.updateData (mvSealedTmp u) = { w with data := { w.data with
      sealed := Function.update w.data.sealed u none
      tmp := Function.update w.data.tmp u (some s) } } := by
  rw [World.updateData, mvSealedTmp]
  simp only [hs]

/-- Whatever it does, it does to system `m`'s two directories. -/
theorem mvTmpSealed_frame (m : SysId) (w : World) :
    (mvTmpSealed m w).misc = w.misc ∧ (mvTmpSealed m w).data.active = w.data.active ∧
      ∀ k, k ≠ m → (mvTmpSealed m w).data.sealed k = w.data.sealed k ∧
        (mvTmpSealed m w).data.tmp k = w.data.tmp k := by
  have hset : ∀ {f : SysId → Option Entries} {v} k, k ≠ m → Function.update f m v k = f k :=
    fun k hk => Function.update_of_ne hk ..
  unfold mvTmpSealed
  split
  · exact ⟨rfl, rfl, fun _ _ => ⟨rfl, rfl⟩⟩
  · split
    · exact ⟨rfl, rfl, fun k hk => ⟨hset k hk, hset k hk⟩⟩
    · dsimp only
      split
      · exact ⟨rfl, rfl, fun k hk => ⟨hset k hk, hset k hk⟩⟩
      · exact ⟨rfl, rfl, fun _ _ => ⟨rfl, rfl⟩⟩

/-! ## Packing and unpacking -/

/-- `w'` is `w` with its active entries moved to a system-m.tmp that held `t`,
and that directory sealed. -/
def Packed (m : SysId) (t : Entries) (w w' : World) : Prop :=
  ∃ a' t' cs, Dir.Partway Node.replaces w.data.active t [] a' t' ∧
    (∀ n ∈ cs, n ∈ w.clashes ∨ n ∈ w.data.active ∧ n ∈ t) ∧
    w' = { w with
      data := { w.data with
        active := a'
        sealed := Function.update w.data.sealed m (some t')
        tmp := Function.update w.data.tmp m none }
      clashes := cs }

theorem packSeal_spec {m : SysId} {t : Entries} (ht : w.data.tmp m = some t)
    (hsealed : w.data.sealed m = none) :
    (packAll m >>= fun _ => op (mvTmpSealed m)).wp (fun _ w' => Packed m t w w')
      (fun why w' => why = .killed ∧ ∃ rest, Packing m t w rest w') w := by
  rw [wp_bind]
  refine wp_mono (packAll_spec ht) ?_ fun _ _ h => h
  intro _ w' h
  refine ⟨⟨rfl, _, h⟩, ?_⟩
  obtain ⟨a', t', cs, hpart, hcs, rfl⟩ := h
  have htmp : (w.data.withMove m a' t').tmp m = some t' := Data.withMove_tmp ..
  rw [@mvTmpSealed_eq { w with data := w.data.withMove m a' t', clashes := cs } m t' htmp hsealed]
  refine ⟨a', t', cs, hpart, hcs, ?_⟩
  rw [World.updateData]
  simp only [Data.withMove, Function.update_idem]

/-- `w'` is `w` with the entries of system-u.tmp, which held `t`, moved to
/data, and that directory removed if it is empty. -/
def Unpacked (u : SysId) (t : Entries) (w w' : World) : Prop :=
  ∃ a' t' cs, Dir.Partway Node.replaces t w.data.active [] t' a' ∧
    (∀ n ∈ cs, n ∈ w.clashes ∨ n ∈ w.data.active ∧ n ∈ t) ∧
    w' = { w with
      data := rmdirTmp u (w.data.withMove u a' t')
      clashes := cs
      whose := ownedBy u t t' w.whose }

theorem unpackRemove_spec {u : SysId} {t : Entries} (ht : w.data.tmp u = some t)
    (hmedia : "media" ∉ t) :
    (unpackAll u >>= fun _ => opData (rmdirTmp u)).wp (fun _ w' => Unpacked u t w w')
      (fun why w' => why = .killed ∧ ∃ rest, Unpacking u t w rest w') w := by
  rw [wp_bind]
  refine wp_mono (unpackAll_spec ht hmedia) ?_ fun _ _ h => h
  intro _ w' h
  refine ⟨⟨rfl, _, h⟩, ?_⟩
  obtain ⟨a', t', cs, hpart, hcs, rfl⟩ := h
  exact ⟨a', t', cs, hpart, hcs, rfl⟩

/-- A .layout_version is made in /data exactly if there is none, and an empty
one: the file whose copy the loop would make is the target itself. -/
theorem createLayoutVersion_spec :
    (dualdataCreateLayoutVersion .active).wp
      (fun _ w' => layoutVersion ∈ w.data.active ∧ w' = w ∨ layoutVersion ∉ w.data.active ∧
        w' = w.updateData (Data.insertAt .active layoutVersion (.file "")))
      (fun why w' => why = .killed ∧ w' = w) w := by
  refine wp_when ?_ ?_
  · intro hmissing
    rw [Bool.not_eq_true'] at hmissing
    refine wp_branch ?_ ?_
    · intro hfound
      simp only [List.any_cons, List.any_nil, Bool.or_self, hmissing] at hfound
      cases hfound
    · exact fun _ => ⟨⟨rfl, rfl⟩, .inr ⟨of_decide_eq_false hmissing, rfl⟩⟩
  · intro hthere
    rw [Bool.not_eq_false'] at hthere
    exact .inl ⟨of_decide_eq_true hthere, rfl⟩

end Pisces.Dualboot
