import Pisces.Dualboot.CrashSafe

/-!
# What a .layout_version can be

The scripts rename entries, copy the .layout_version of /data and make empty
ones. So what holds of every entry wherever it is kept is kept by every command,
killed or not, if it does not depend on the directory the entry is in.
-/

namespace Pisces.Dualboot

open Pisces.Lib Pisces.Lib.Script

variable {T : Name → Node → Prop} {d : Data} {w : World} {env : Env}

/-- Every entry of the directory is as `T` says for its name. -/
def Entries.All (T : Name → Node → Prop) (s : Entries) : Prop :=
  ∀ n v, s.lookup n = some v → T n v

/-- And so is every entry of those directories that there are. -/
def AllIn (T : Name → Node → Prop) (f : SysId → Option Entries) : Prop :=
  ∀ k s, f k = some s → Entries.All T s

structure Data.All (T : Name → Node → Prop) (d : Data) : Prop where
  active : Entries.All T d.active
  sealed : AllIn T d.sealed
  tmp : AllIn T d.tmp
  disabled : AllIn T d.disabled

/-- What the scripts themselves make of entries agrees with `T`. -/
structure Hereditary (T : Name → Node → Prop) : Prop where
  empty : T layoutVersion (.file "")
  created : ∀ v, T layoutVersion v → T layoutVersion v.created
  tmp : ∀ m s, Entries.All T s → T (tmpName m) (Entries.toNode s)
  legacy : ∀ k es, T (legacyName k) (.dir es) → Entries.All T (.ofList es)

/-! ## Directories -/

theorem Entries.All.empty : Entries.All T ∅ := by
  intro n v hv
  rw [Finmap.lookup_empty] at hv
  cases hv

theorem Entries.All.erase {s : Entries} (h : Entries.All T s) (n : Name) :
    Entries.All T (s.erase n) := by
  intro x v hv
  have hx : x ∈ s.erase n := Finmap.mem_of_lookup_eq_some hv
  rw [Finmap.lookup_erase_ne (Finmap.mem_erase.mp hx).1] at hv
  exact h x v hv

theorem Entries.All.insert {s : Entries} (h : Entries.All T s) {n : Name} {v : Node} (hv : T n v) :
    Entries.All T (s.insert n v) := by
  intro x u hu
  by_cases hx : x = n
  · subst hx
    rw [Finmap.lookup_insert, Option.some.injEq] at hu
    rw [← hu]
    exact hv
  · rw [Finmap.lookup_insert_of_ne _ hx] at hu
    exact h x u hu

/-- A move takes an entry to the other directory under its name. -/
theorem Entries.All.move {s t : Entries} (hs : Entries.All T s) (ht : Entries.All T t) (n : Name) :
    Entries.All T (Dir.move Node.replaces n s t).1 ∧
      Entries.All T (Dir.move Node.replaces n s t).2 := by
  constructor
  · exact fun x v hv => hs x v (Dir.lookup_move_src hv)
  · intro x v hv
    rcases Dir.lookup_move_dst hv with hv | hv
    · exact hs x v hv
    · exact ht x v hv

theorem AllIn.set {f : SysId → Option Entries} (h : AllIn T f) {k : SysId} {s : Entries}
    (hs : Entries.All T s) : AllIn T (Function.update f k (some s)) := by
  intro j t ht
  by_cases hj : j = k
  · subst hj
    rw [Function.update_self, Option.some.injEq] at ht
    rw [← ht]
    exact hs
  · rw [Function.update_of_ne hj] at ht
    exact h j t ht

theorem AllIn.remove {f : SysId → Option Entries} (h : AllIn T f) (k : SysId) :
    AllIn T (Function.update f k none) := by
  intro j t ht
  by_cases hj : j = k
  · subst hj
    rw [Function.update_self] at ht
    cases ht
  · rw [Function.update_of_ne hj] at ht
    exact h j t ht

/-! ## Operations -/

namespace Data.All

theorem rmdirSealed (h : d.All T) (k : SysId) : (rmdirSealed k d).All T := by
  unfold Dualboot.rmdirSealed
  split
  · exact { h with sealed := h.sealed.remove k }
  · exact h

theorem rmdirTmp (h : d.All T) (u : SysId) : (rmdirTmp u d).All T := by
  unfold Dualboot.rmdirTmp
  split
  · exact { h with tmp := h.tmp.remove u }
  · exact h

theorem rmdirLegacy (h : d.All T) (k : SysId) : (rmdirLegacy k d).All T := by
  unfold Dualboot.rmdirLegacy
  split
  · exact { h with active := h.active.erase _ }
  · exact h

theorem mkdirTmp (h : d.All T) (p : SysId) : (mkdirTmp p d).All T := by
  refine { h with tmp := h.tmp.set ?_ }
  cases ht : d.tmp p with
  | none => exact .empty
  | some t => exact h.tmp p t ht

theorem mkdirSealed (h : d.All T) (k : SysId) : (mkdirSealed k d).All T := by
  refine { h with sealed := h.sealed.set ?_ }
  cases hs : d.sealed k with
  | none => exact .empty
  | some s => exact h.sealed k s hs

theorem mvSealedTmp (h : d.All T) (u : SysId) : (mvSealedTmp u d).All T := by
  unfold Dualboot.mvSealedTmp
  split
  · exact h
  · next s hs => exact { h with sealed := h.sealed.remove u, tmp := h.tmp.set (h.sealed u s hs) }

theorem disableSealed (h : d.All T) (k : SysId) : (disableSealed k d).All T := by
  unfold Dualboot.disableSealed
  split
  · next s hs _ =>
      exact { h with sealed := h.sealed.remove k, disabled := h.disabled.set (h.sealed k s hs) }
  · exact h

theorem enableSealed (h : d.All T) (k : SysId) : (enableSealed k d).All T := by
  unfold Dualboot.enableSealed
  split
  · next s hs _ =>
      exact { h with disabled := h.disabled.remove k, sealed := h.sealed.set (h.disabled k s hs) }
  · exact h

theorem removeLegacy (h : d.All T) (k : SysId) : (removeLegacy k d).All T :=
  { h with active := h.active.erase _ }

theorem mvLegacySealed (hT : Hereditary T) (h : d.All T) (k : SysId) :
    (mvLegacySealed k d).All T := by
  unfold Dualboot.mvLegacySealed
  split
  · exact h
  · next es hes =>
      have hdir : d.active.lookup (legacyName k) = some (.dir es) := by
        unfold Data.legacyDir at hes
        split at hes
        · next hdir =>
            rw [hdir, Option.some.inj hes]
        · cases hes
      exact { h with
        active := h.active.erase _
        sealed := h.sealed.set (hT.legacy k es (h.active _ _ hdir)) }

theorem insertAt (h : d.All T) (target : Target) {v : Node} (hv : T layoutVersion v) :
    (Data.insertAt target layoutVersion v d).All T := by
  cases target with
  | active => exact { h with active := h.active.insert hv }
  | sealed k =>
      cases hs : d.sealed k with
      | none =>
          simp only [Data.insertAt, hs]
          exact h
      | some s =>
          simp only [Data.insertAt, hs]
          exact { h with sealed := h.sealed.set ((h.sealed k s hs).insert hv) }

theorem withMove (h : d.All T) {m : SysId} {a t : Entries} (ha : Entries.All T a)
    (ht : Entries.All T t) : (d.withMove m a t).All T :=
  { h with active := ha, tmp := h.tmp.set ht }

end Data.All

theorem packEntry_all (h : w.data.All T) (m : SysId) (n : Name) : (packEntry m n w).data.All T := by
  unfold packEntry
  split
  · exact h
  · next t ht =>
      have hmove := h.active.move (h.tmp m t ht) n
      exact h.withMove hmove.1 hmove.2

theorem unpackEntry_all (h : w.data.All T) (m : SysId) (n : Name) :
    (unpackEntry m n w).data.All T := by
  unfold unpackEntry
  split
  · exact h
  · next t ht =>
      split
      · exact h
      · have hmove := (h.tmp m t ht).move h.active n
        exact h.withMove hmove.2 hmove.1

theorem mvTmpSealed_all (hT : Hereditary T) (h : w.data.All T) (m : SysId) :
    (mvTmpSealed m w).data.All T := by
  unfold mvTmpSealed
  split
  · exact h
  · next t ht =>
      have htall := h.tmp m t ht
      split
      · exact { h with sealed := h.sealed.set htall, tmp := h.tmp.remove m }
      · next s hs =>
          have hsall := (h.sealed m s hs).insert (hT.tmp m t htall)
          dsimp only
          split
          · exact { h with sealed := h.sealed.set hsall, tmp := h.tmp.remove m }
          · exact h

/-! ## Commands -/

section Keeps

variable (hT : Hereditary T)

theorem opData_all {f : Data → Data} (hf : ∀ d : Data, d.All T → (f d).All T) :
    Keeps (fun w => w.data.All T) (opData f) := .op fun w h => hf w.data h

theorem packAll_all (m : SysId) : Keeps (fun w => w.data.All T) (packAll m) :=
  .bind (.get _) fun _ => .forM fun n _ => .op fun _ h => packEntry_all h m n

theorem unpackAll_all (m : SysId) : Keeps (fun w => w.data.All T) (unpackAll m) :=
  .bind (.get _) fun _ => .forM fun n _ => .op fun _ h => unpackEntry_all h m n

include hT

theorem createLayoutVersion_all (target : Target) :
    Keeps (fun w => w.data.All T) (dualdataCreateLayoutVersion target) := by
  refine .when (.branch ?_ (opData_all fun _ h => h.insertAt target hT.empty))
  intro w h
  -- the file that is copied is one of the entries
  have hv : T layoutVersion ((w.data.active.lookup layoutVersion).getD (.file "")) := by
    cases hlv : w.data.active.lookup layoutVersion with
    | none => exact hT.empty
    | some v => exact h.active _ _ hlv
  rw [wp_bind, wp_get, wp_bind, wp_opData, wp_opData]
  have hcreated := h.insertAt target (hT.created _ hv)
  exact ⟨h, hcreated, hcreated.insertAt target hv⟩

theorem dualdataMigrate_all (k : SysId) : Keeps (fun w => w.data.All T) (dualdataMigrate k) :=
  .when (.branch (opData_all fun _ h => h.removeLegacy k)
    (opData_all fun _ h => h.mvLegacySealed hT k))

theorem finishMove_all (m : SysId) : Keeps (fun w => w.data.All T) (finishMove m) :=
  .when (.bind (packAll_all m) fun _ => .op fun _ h => mvTmpSealed_all hT h m)

theorem dualdataOpen_all : Keeps (fun w => w.data.All T) (dualdataOpen env) := by
  have hbind : Keeps (fun w => w.data.All T) (bindData env) :=
    .bind (.get _) fun _ => .bind (.require _) fun _ => .bind (.op fun _ h => h) fun _ =>
      .bind (.get _) fun _ => .bind (.require _) fun _ => .op fun _ h => h
  refine .bind hbind fun _ => ?_
  refine .bind (.forM fun k _ => opData_all fun _ h => h.rmdirSealed k) fun _ => ?_
  refine .bind (.forM fun k _ => opData_all fun _ h => h.rmdirLegacy k) fun _ => ?_
  refine .bind (.forM fun k _ => finishMove_all hT k) fun _ => ?_
  exact .bind (.forM fun k _ => dualdataMigrate_all hT k) fun _ => .when (.op fun _ h => h)

theorem dualdataReopen_all : Keeps (fun w => w.data.All T) (dualdataReopen env) :=
  .bind (.op fun _ h => h) fun _ => dualdataOpen_all hT

theorem dualdataEnable_all (current : Option SysId) :
    Keeps (fun w => w.data.All T) (dualdataEnable env current) := by
  refine .bind (.forM fun k _ => opData_all fun _ h => h.enableSealed k) fun _ => ?_
  refine .bind (dualdataReopen_all hT) fun _ => .branch (.pure ()) ?_
  refine .bind (.get _) fun _ => .bind (opData_all fun _ h => h.mkdirSealed _) fun _ => ?_
  exact createLayoutVersion_all hT _

theorem dualdataSwitchtodata_all (which : Option SysId) :
    Keeps (fun w => w.data.All T) (dualdataSwitchtodata which) := by
  refine .when ?_
  cases which with
  | none => exact fun _ h => h
  | some u =>
      refine .bind (.when ?_) fun _ => .bind (.bind (.when ?_) fun _ => .when ?_) fun _ =>
        createLayoutVersion_all hT _
      · exact .bind (opData_all fun _ h => h.mkdirTmp _) fun _ => .bind (packAll_all _) fun _ =>
          .op fun _ h => mvTmpSealed_all hT h _
      · exact opData_all fun _ h => h.mvSealedTmp u
      · exact .bind (unpackAll_all u) fun _ => opData_all fun _ h => h.rmdirTmp u

theorem bootInto_all (which : Option SysId) :
    Keeps (fun w => w.data.All T) (bootInto env which) :=
  .bind (@dualbootHacknodes_keeps env (fun d _ _ _ => d.All T) which) fun _ =>
    .bind (@mountData_keeps env fun d _ _ _ => d.All T) fun _ =>
      .bind (dualdataOpen_all hT) fun _ =>
        .bind (dualdataSwitchtodata_all hT which) fun _ => .op fun _ h => h

theorem command_all (c : Command) : Keeps (fun w => w.data.All T) (c.script env) := by
  have hwrite : ∀ which, Keeps (fun w => w.data.All T) (dualbootWrite env which) :=
    fun which => @dualbootWrite_keeps env (fun d _ _ => d.All T) which
  have hmount : Keeps (fun w => w.data.All T) (mountData env) :=
    @mountData_keeps env fun d _ _ _ => d.All T
  cases c with
  | set which =>
      exact .bind (hwrite which) fun _ => .bind (.require _) fun _ => bootInto_all hT which
  | get => exact .bind (dualdataOpen_all hT) fun _ => .op fun _ h => h
  | save which =>
      exact .bind (hwrite which) fun _ => .bind (.require _) fun _ => bootInto_all hT which
  | load => exact .bind (.get _) fun _ => bootInto_all hT _
  | enabledualdata which =>
      exact .bind hmount fun _ => .bind (dualdataOpen_all hT) fun _ =>
        .bind (dualdataEnable_all hT which) fun _ => .bind (dualdataReopen_all hT) fun _ =>
          .bind (dualdataSwitchtodata_all hT which) fun _ => .op fun _ h => h
  | disabledualdata =>
      refine .bind hmount fun _ => .bind (dualdataOpen_all hT) fun _ => .bind ?_ fun _ =>
        .bind (dualdataReopen_all hT) fun _ => .op fun _ h => h
      exact .bind (.forM fun k _ => opData_all fun _ h => h.disableSealed k) fun _ =>
        dualdataReopen_all hT

/-- After any commands, killed or not, every entry is still as `T` says. -/
theorem all_reachable {w₀ : World} {calls : List Call} (h₀ : w₀.data.All T)
    (hrun : Run step always w₀ calls w) : w.data.All T := by
  refine hrun.invariant (I := fun w => w.data.All T) h₀ ?_
  intro w₁ c _ h _ hstep
  cases hstep
  exact run_state (@command_all T c.env hT c.cmd (w₁.start c.env) h) c.budget

end Keeps

end Pisces.Dualboot
