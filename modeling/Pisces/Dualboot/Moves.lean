import Pisces.Dualboot.Model

/-!
# The two mv loops

Packing empties the active entries into a system-m.tmp, unpacking empties a
system-m.tmp into /data. Each is a loop of renames that can be cut after any
of them; here is, once, what /data looks like at each of these points. A name
is noted as a clash only if both directories had it when the loop began.
-/

namespace Pisces.Dualboot

open Pisces.Lib Pisces.Lib.Script

theorem mem_glob {d : Entries} {n : Name} : n ∈ glob d ↔ n ∈ d := by
  rw [glob, List.mem_append, List.mem_filter, List.mem_filter, Dir.mem_names]
  cases hidden n <;> simp

theorem SysId.other_ne (k : SysId) : k.other ≠ k := by cases k <;> decide

@[simp] theorem SysId.other_other (k : SysId) : k.other.other = k := by cases k <;> rfl

theorem SysId.eq_or_other (k j : SysId) : j = k ∨ j = k.other := by cases k <;> cases j <;> decide

theorem SysId.forall_iff (k : SysId) {P : SysId → Prop} : (∀ j, P j) ↔ P k ∧ P k.other := by
  constructor
  · intro h
    exact ⟨h k, h k.other⟩
  · rintro ⟨hk, hother⟩ j
    rcases SysId.eq_or_other k j with rfl | rfl
    · exact hk
    · exact hother

theorem SysId.mem_all (k : SysId) : k ∈ SysId.all := by cases k <;> decide

@[simp] theorem World.updateData_data (f : Data → Data) (w : World) :
    (w.updateData f).data = f w.data := rfl

theorem mem_noted {taken : Bool} {n x : Name} {cs : List Name} (h : x ∈ noted taken n cs) :
    x ∈ cs ∨ x = n ∧ taken = true := by
  unfold noted at h
  split at h
  · next ht =>
      rcases List.mem_cons.mp h with hx | hx
      · exact .inr ⟨hx, ht⟩
      · exact .inl hx
  · exact .inl h

theorem Data.withMove_tmp (d : Data) (m : SysId) (a t : Entries) :
    (d.withMove m a t).tmp m = some t := Function.update_self ..

theorem Data.withMove_tmp_other (d : Data) (m : SysId) (a t : Entries) :
    (d.withMove m a t).tmp m.other = d.tmp m.other := Function.update_of_ne (SysId.other_ne m) _ _

theorem Data.withMove_withMove (d : Data) (m : SysId) (a t a' t' : Entries) :
    (d.withMove m a t).withMove m a' t' = d.withMove m a' t' := by
  rw [withMove, withMove, withMove, Function.update_idem]

/-! ## Packing -/

/-- `w'` is `w` partway through packing into system-m.tmp, which held `t`. -/
def Packing (m : SysId) (t : Entries) (w : World) (rest : List Name) (w' : World) : Prop :=
  ∃ a' t' cs, Dir.Partway Node.replaces w.data.active t rest a' t' ∧
    (∀ n ∈ cs, n ∈ w.clashes ∨ n ∈ w.data.active ∧ n ∈ t) ∧
    w' = { w with data := w.data.withMove m a' t', clashes := cs }

section

variable {m : SysId} {t : Entries} {w w' : World} {rest : List Name} {n : Name}

theorem Packing.step (h : Packing m t w (n :: rest) w') :
    Packing m t w rest (packEntry m n w') := by
  obtain ⟨a', t', cs, hpart, hcs, rfl⟩ := h
  have hnew : packEntry m n { w with data := w.data.withMove m a' t', clashes := cs } =
      { w with
        data := w.data.withMove m (Dir.move Node.replaces n a' t').1
          (Dir.move Node.replaces n a' t').2
        clashes := noted (n ∈ a' ∧ n ∈ t') n cs } := by
    rw [packEntry, Data.withMove_tmp]
    simp only [Data.withMove_withMove]
    rfl
  rw [hnew]
  refine ⟨_, _, _, hpart.move, ?_, rfl⟩
  intro x hx
  rcases mem_noted hx with hx | ⟨rfl, htaken⟩
  · exact hcs x hx
  · obtain ⟨ha, ht⟩ := of_decide_eq_true htaken
    exact .inr ⟨hpart.mem_src ha, (hpart.mem_dst ha).mp ht⟩

theorem packAll_spec (ht : w.data.tmp m = some t) :
    (packAll m).wp (fun _ w' => Packing m t w [] w')
      (fun why w' => why = .killed ∧ ∃ rest, Packing m t w rest w') w := by
  rw [packAll, wp_bind, wp_get]
  have hinit : Packing m t w (glob w.data.active) w := by
    refine ⟨w.data.active, t, w.clashes, .init fun x hx => mem_glob.mpr hx,
      fun n hn => .inl hn, ?_⟩
    rw [Data.withMove, ← ht, Function.update_eq_self]
  refine wp_forM (Packing m t w) ?_ hinit
  intro n rest w' h
  exact ⟨⟨rfl, _, h⟩, h.step⟩

/-! ## Unpacking -/

/-- What has gone from system-m.tmp, which held `t`, is system `m`'s. -/
def ownedBy (m : SysId) (t t' : Entries) (whose : Name → SysId) : Name → SysId := fun n =>
  if n ∈ t ∧ n ∉ t' then m else whose n

/-- `w'` is `w` partway through unpacking system-m.tmp, which held `t`. -/
def Unpacking (m : SysId) (t : Entries) (w : World) (rest : List Name) (w' : World) : Prop :=
  ∃ a' t' cs, Dir.Partway Node.replaces t w.data.active rest t' a' ∧
    (∀ n ∈ cs, n ∈ w.clashes ∨ n ∈ w.data.active ∧ n ∈ t) ∧
    w' = { w with
      data := w.data.withMove m a' t'
      clashes := cs
      whose := ownedBy m t t' w.whose }

theorem ownedBy_self (m : SysId) (t : Entries) (whose : Name → SysId) :
    ownedBy m t t whose = whose :=
  funext fun _ => if_neg fun h => h.2 h.1

theorem ownedBy_move {t' a' : Entries} {whose : Name → SysId} (hsub : n ∈ t' → n ∈ t) :
    (if n ∈ t' ∧ n ∉ (Dir.move Node.replaces n t' a').1 then
        Function.update (ownedBy m t t' whose) n m
      else ownedBy m t t' whose) =
      ownedBy m t (Dir.move Node.replaces n t' a').1 whose := by
  funext x
  by_cases hx : x = n
  · subst hx
    split
    · next h => rw [Function.update_self, ownedBy, if_pos ⟨hsub h.1, h.2⟩]
    · next h =>
        have hsame : x ∈ (Dir.move Node.replaces x t' a').1 ↔ x ∈ t' :=
          ⟨fun hmem => (Dir.mem_move_src hmem).1, fun hmem => by_contra fun hno => h ⟨hmem, hno⟩⟩
        simp only [ownedBy, hsame]
  · have hother : ownedBy m t t' whose x =
        ownedBy m t (Dir.move Node.replaces n t' a').1 whose x := by
      simp only [ownedBy, Dir.mem_move_of_ne hx]
    split
    · rw [Function.update_of_ne hx, hother]
    · exact hother

theorem Unpacking.step (hmedia : n ≠ "media") (h : Unpacking m t w (n :: rest) w') :
    Unpacking m t w rest (unpackEntry m n w') := by
  obtain ⟨a', t', cs, hpart, hcs, rfl⟩ := h
  have hnew : unpackEntry m n
        { w with data := w.data.withMove m a' t', clashes := cs, whose := ownedBy m t t' w.whose } =
      { w with
        data := w.data.withMove m (Dir.move Node.replaces n t' a').2
          (Dir.move Node.replaces n t' a').1
        clashes := noted (n ∈ t' ∧ n ∈ a') n cs
        whose := ownedBy m t (Dir.move Node.replaces n t' a').1 w.whose } := by
    rw [← ownedBy_move hpart.mem_src, unpackEntry, Data.withMove_tmp]
    simp only [if_neg hmedia, Data.withMove_withMove]
    rfl
  rw [hnew]
  refine ⟨_, _, _, hpart.move, ?_, rfl⟩
  intro x hx
  rcases mem_noted hx with hx | ⟨rfl, htaken⟩
  · exact hcs x hx
  · obtain ⟨ht, ha⟩ := of_decide_eq_true htaken
    exact .inr ⟨(hpart.mem_dst ht).mp ha, hpart.mem_src ht⟩

theorem unpackAll_spec (ht : w.data.tmp m = some t) (hmedia : "media" ∉ t) :
    (unpackAll m).wp (fun _ w' => Unpacking m t w [] w')
      (fun why w' => why = .killed ∧ ∃ rest, Unpacking m t w rest w') w := by
  rw [unpackAll, wp_bind, wp_get, ht, Option.map_some, Option.getD_some]
  have hinit : Unpacking m t w (glob t) w := by
    refine ⟨w.data.active, t, w.clashes, .init fun x hx => mem_glob.mpr hx,
      fun n hn => .inl hn, ?_⟩
    rw [ownedBy_self, Data.withMove, ← ht, Function.update_eq_self]
  -- the loop needs to know that the names still to come are not media
  have hloop : (forM (glob t) fun n => op (unpackEntry m n)).wp
      (fun _ w' => (∀ n ∈ [], n ∈ t) ∧ Unpacking m t w [] w')
      (fun why w' => why = .killed ∧ ∃ rest, Unpacking m t w rest w') w := by
    refine wp_forM (fun rest w' => (∀ n ∈ rest, n ∈ t) ∧ Unpacking m t w rest w') ?_
      ⟨fun n hn => mem_glob.mp hn, hinit⟩
    rintro n rest w' ⟨hsub, h⟩
    refine ⟨⟨rfl, _, h⟩, fun x hx => hsub x (List.mem_cons_of_mem _ hx), h.step ?_⟩
    rintro rfl
    exact hmedia (hsub _ List.mem_cons_self)
  exact wp_mono hloop (fun _ _ h => h.2) (fun _ _ h => h)

end

end Pisces.Dualboot
