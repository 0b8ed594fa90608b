import Pisces.Lib.Dir
import Pisces.Lib.Script
import Mathlib.Data.String.Basic

/-!
# The dual boot script

`dualboot.sh` keeps two systems on one /data. The system that boots has its
files at the top of /data (the active entries); the other one's are put away in
media/system-1 or media/system-2. Switching packs the active entries into one
of the two and unpacks the other, one rename at a time, with a system-k.tmp
directory while a move is under way; `dualdata_open` finishes a move that an
earlier script did not. Which system the active entries belong to, and whether
dual data is on at all, is nowhere stored: both follow from which directories
exist.

The model keeps /data itself and the six directories of media that the script
knows. /data/media is taken to exist (`dualdata_open` makes it when it is
missing, and nothing removes it). The shell expands a pattern before mv starts;
mv then renames one name after the other and goes on past those it cannot
rename, `.`, `..` and media among them.
-/

namespace Pisces.Dualboot

open Pisces.Lib Pisces.Lib.Script

/-! ## Files -/

abbrev Name := String

inductive Node where
  | file (content : String)
  | dir (entries : List (Name × Node))

mutual

def Node.decEq : (a b : Node) → Decidable (a = b)
  | .file c, .file c' => decidable_of_iff (c = c') (by rw [Node.file.injEq])
  | .dir es, .dir es' =>
      match Node.decEqEntries es es' with
      | .isTrue h => .isTrue (by rw [h])
      | .isFalse h => .isFalse fun heq => h (Node.dir.inj heq)
  | .file _, .dir _ => .isFalse nofun
  | .dir _, .file _ => .isFalse nofun

def Node.decEqEntries : (a b : List (Name × Node)) → Decidable (a = b)
  | [], [] => .isTrue rfl
  | [], _ :: _ => .isFalse nofun
  | _ :: _, [] => .isFalse nofun
  | (n, v) :: as, (n', v') :: bs =>
      match String.decEq n n', Node.decEq v v', Node.decEqEntries as bs with
      | .isTrue hn, .isTrue hv, .isTrue hs => .isTrue (by rw [hn, hv, hs])
      | .isFalse hn, _, _ => .isFalse fun heq => hn (by cases heq; rfl)
      | _, .isFalse hv, _ => .isFalse fun heq => hv (by cases heq; rfl)
      | _, _, .isFalse hs => .isFalse fun heq => hs (by cases heq; rfl)

end

instance : DecidableEq Node := Node.decEq

/-- rename(2): a file takes the place of a file, a directory that of an empty
directory. -/
def Node.replaces : Node → Node → Bool
  | .file _, .file _ => true
  | .dir _, .dir [] => true
  | _, _ => false

abbrev Entries := Dir Name Node

def Entries.ofList (es : List (Name × Node)) : Entries :=
  List.toFinmap (es.map fun e => ⟨e.1, e.2⟩)

def Entries.toNode (d : Entries) : Node :=
  .dir (d.names.filterMap fun n => (d.lookup n).map (Prod.mk n))

def hidden (n : Name) : Bool := n.toList.head? = some '.'

/-- `"$dir/"* "$dir/".*` -/
def glob (d : Entries) : List Name := d.names.filter (!hidden ·) ++ d.names.filter hidden

def layoutVersion : Name := ".layout_version"

/-! ## The state -/

inductive SysId where
  | one
  | two
  deriving DecidableEq, Repr

def SysId.other : SysId → SysId
  | .one => .two
  | .two => .one

/-- The entries of /data other than media, and media/system-k,
media/system-k.tmp and media/system-k.disabled. -/
structure Data where
  active : Entries
  sealed : SysId → Option Entries
  tmp : SysId → Option Entries
  disabled : SysId → Option Entries

/-- What a script works on. `mounted` is about /data, `enabled` is
`DUALDATA_ENABLED` and `binds` counts the bind mounts so far. As history,
`clashes` has the names that a rename found already there, and `whose` the system
that has made an active entry, or from whose directory it has come. -/
structure World where
  data : Data
  misc : Nat → UInt8
  nodes : Nat → Option Nat
  mounted : Bool
  enabled : Bool
  binds : Nat
  clashes : List Name
  whose : Name → SysId

/-- The external commands that may fail. For a mount that means an output other than
"Device or resource busy"; but a busy mount that leaves /data unmounted counts as a
failure of `mountData`, since the script looks for it among the mounts next. -/
inductive Ext where
  | dd
  | mknod (partnum : Nat)
  | mountData
  | bind (nth : Nat)
  deriving DecidableEq

/-- What a script finds and cannot change: whether /data is mounted when it
starts, ro.syspart, and which external commands fail. -/
structure Env where
  mounted : Bool
  syspart : SysId
  fails : Ext → Bool

def World.updateData (f : Data → Data) (w : World) : World := { w with data := f w.data }

/-! ## The bootmark and the device nodes -/

def bootmarkOffset : Nat := 4096
def bootmarkCount : Nat := 13
def partnumBoot : Nat := 19
def partnumBoot1 : Nat := 20
def partnumSystem : Nat := 24
def partnumSystem1 : Nat := 25

def bytes (s : String) : List UInt8 := s.toList.map fun c => UInt8.ofNat c.toNat

def bootmark : SysId → List UInt8
  | .one => bytes "boot-system" ++ [0, 0]
  | .two => bytes "boot-system1" ++ [0]

/-- `dd seek=4096 bs=1 count=13` -/
def writeMisc (mark : List UInt8) (misc : Nat → UInt8) : Nat → UInt8 := fun i =>
  if bootmarkOffset ≤ i ∧ i < bootmarkOffset + bootmarkCount then mark.getD (i - bootmarkOffset) 0
  else misc i

def readMisc (misc : Nat → UInt8) : List UInt8 :=
  (List.range bootmarkCount).map fun i => misc (bootmarkOffset + i)

def dualbootRead (misc : Nat → UInt8) : SysId :=
  if bytes "boot-system1" <:+: readMisc misc then .two else .one

section

variable (env : Env)

/-- The argument is an id, or anything else. -/
def dualbootWrite (which : Option SysId) : Script World Bool :=
  match which with
  | some k =>
      if env.fails .dd then pure false
      else do
        op fun w => { w with misc := writeMisc (bootmark k) w.misc }
        pure true
  | none => pure false

def removeNodes (nodes : Nat → Option Nat) : Nat → Option Nat := fun part =>
  if part ∈ [partnumBoot, partnumBoot1, partnumSystem, partnumSystem1] then none else nodes part

/-- `mknod /dev/block/mmcblk0p$part b 179 $minor || ldie` -/
def mknod (part minor : Nat) : Script World Unit := do
  require (!env.fails (.mknod part))
  op fun w => { w with nodes := Function.update w.nodes part (some minor) }

def dualbootHacknodes (which : Option SysId) : Script World Unit :=
  let hack (minorBoot minorSystem : Nat) : Script World Unit := do
    op fun w => { w with nodes := removeNodes w.nodes }
    mknod env partnumBoot minorBoot
    mknod env partnumBoot1 minorBoot
    mknod env partnumSystem minorSystem
    mknod env partnumSystem1 minorSystem
  match which with
  | some .one => hack partnumBoot partnumSystem
  | some .two => hack partnumBoot1 partnumSystem1
  | none => pure ()

/-! ## Operations on /data -/

/-- A rename that finds the destination's name taken is noted. -/
def noted (taken : Bool) (n : Name) (clashes : List Name) : List Name :=
  if taken then n :: clashes else clashes

/-- /data with other active entries and another system-m.tmp. -/
def Data.withMove (d : Data) (m : SysId) (a t : Entries) : Data :=
  { d with active := a, tmp := Function.update d.tmp m (some t) }

/-- Renames the active entry `n` into system-m.tmp. -/
def packEntry (m : SysId) (n : Name) (w : World) : World :=
  match w.data.tmp m with
  | none => w
  | some t =>
      let moved := Dir.move Node.replaces n w.data.active t
      { w with
        data := w.data.withMove m moved.1 moved.2
        clashes := noted (n ∈ w.data.active ∧ n ∈ t) n w.clashes }

/-- Renames the entry `n` of system-m.tmp into /data, where media is a
directory that is never empty. -/
def unpackEntry (m : SysId) (n : Name) (w : World) : World :=
  match w.data.tmp m with
  | none => w
  | some t =>
      if n = "media" then { w with clashes := noted (n ∈ t) n w.clashes }
      else
        let moved := Dir.move Node.replaces n t w.data.active
        { w with
          data := w.data.withMove m moved.2 moved.1
          clashes := noted (n ∈ t ∧ n ∈ w.data.active) n w.clashes
          whose := if n ∈ t ∧ n ∉ moved.1 then Function.update w.whose n m else w.whose }

/-- `mv_q "$DATA/"* "$DATA/".* "$SYSTEMS/system-$m.tmp"` -/
def packAll (m : SysId) : Script World Unit := do
  let names ← get fun w => glob w.data.active
  forM names fun n => op (packEntry m n)

/-- `mv_q "$from.tmp/"* "$from.tmp/".* "$DATA"/` -/
def unpackAll (m : SysId) : Script World Unit := do
  let names ← get fun w => ((w.data.tmp m).map glob).getD []
  forM names fun n => op (unpackEntry m n)

def tmpName : SysId → Name
  | .one => "system-1.tmp"
  | .two => "system-2.tmp"

/-- `mv system-m.tmp system-m`, which goes into system-m if there is one. -/
def mvTmpSealed (m : SysId) (w : World) : World :=
  match w.data.tmp m with
  | none => w
  | some t =>
      match w.data.sealed m with
      | none => w.updateData fun d =>
          { d with
            sealed := Function.update d.sealed m (some t)
            tmp := Function.update d.tmp m none }
      | some s =>
          let w' := { w with clashes := noted (tmpName m ∈ s) (tmpName m) w.clashes }
          if Dir.admits Node.replaces t.toNode (s.lookup (tmpName m)) then
            w'.updateData fun d =>
              { d with
                sealed := Function.update d.sealed m (some (s.insert (tmpName m) t.toNode))
                tmp := Function.update d.tmp m none }
          else w'

/-- `mv system-u system-u.tmp`, with no such directory yet. -/
def mvSealedTmp (u : SysId) (d : Data) : Data :=
  match d.sealed u with
  | none => d
  | some s =>
      { d with sealed := Function.update d.sealed u none, tmp := Function.update d.tmp u (some s) }

/-- `mkdir -p system-p.tmp` -/
def mkdirTmp (p : SysId) (d : Data) : Data :=
  { d with tmp := Function.update d.tmp p (some ((d.tmp p).getD ∅)) }

def mkdirSealed (k : SysId) (d : Data) : Data :=
  { d with sealed := Function.update d.sealed k (some ((d.sealed k).getD ∅)) }

def rmdirTmp (u : SysId) (d : Data) : Data :=
  if d.tmp u = some ∅ then { d with tmp := Function.update d.tmp u none } else d

def rmdirSealed (k : SysId) (d : Data) : Data :=
  if d.sealed k = some ∅ then { d with sealed := Function.update d.sealed k none } else d

/-- Where an older version of the script kept the data of a system that is not
running. -/
def legacyName : SysId → Name
  | .one => "system0"
  | .two => "system1"

def Data.legacyDir (d : Data) (k : SysId) : Option (List (Name × Node)) :=
  match d.active.lookup (legacyName k) with
  | some (.dir es) => some es
  | _ => none

def rmdirLegacy (k : SysId) (d : Data) : Data :=
  match d.legacyDir k with
  | some [] => { d with active := d.active.erase (legacyName k) }
  | _ => d

/-- `rm -rf`, as one operation. -/
def removeLegacy (k : SysId) (d : Data) : Data :=
  { d with active := d.active.erase (legacyName k) }

def mvLegacySealed (k : SysId) (d : Data) : Data :=
  match d.legacyDir k with
  | none => d
  | some es =>
      { d with
        active := d.active.erase (legacyName k)
        sealed := Function.update d.sealed k (some (.ofList es)) }

/-- `rename_directory system-k system-k.disabled` -/
def disableSealed (k : SysId) (d : Data) : Data :=
  match d.sealed k, d.disabled k with
  | some s, none =>
      { d with
        sealed := Function.update d.sealed k none
        disabled := Function.update d.disabled k (some s) }
  | _, _ => d

/-- `rename_directory system-k.disabled system-k` -/
def enableSealed (k : SysId) (d : Data) : Data :=
  match d.disabled k, d.sealed k with
  | some s, none =>
      { d with
        disabled := Function.update d.disabled k none
        sealed := Function.update d.sealed k (some s) }
  | _, _ => d

/-! ## Dual data -/

def opData (f : Data → Data) : Script World Unit := op (World.updateData f)

def dualdataMigrate (k : SysId) : Script World Unit :=
  when (fun w => (w.data.legacyDir k).isSome) <|
    branch (fun w => (w.data.sealed k).isSome)
      (opData (removeLegacy k))
      (opData (mvLegacySealed k))

/-- Where `dualdata_create_layout_version_` is to make a file: in /data or in
media/system-k. -/
inductive Target where
  | active
  | sealed (k : SysId)

def Data.dirAt (d : Data) : Target → Option Entries
  | .active => some d.active
  | .sealed k => d.sealed k

def Data.insertAt (t : Target) (n : Name) (v : Node) (d : Data) : Data :=
  match t with
  | .active => { d with active := d.active.insert n v }
  | .sealed k =>
      match d.sealed k with
      | none => d
      | some s => { d with sealed := Function.update d.sealed k (some (s.insert n v)) }

def Data.hasFile (d : Data) (t : Target) (n : Name) : Bool :=
  match d.dirAt t with
  | none => false
  | some s => n ∈ s

/-- What `cp -a` has made of a node before it has copied anything. -/
def Node.created : Node → Node
  | .file _ => .file ""
  | .dir _ => .dir []

def dualdataCreateLayoutVersion (target : Target) : Script World Unit :=
  when (fun w => !w.data.hasFile target layoutVersion) <|
    -- the loop over the three places tests /data's file in each round
    branch (fun w => [Target.active, .sealed .one, .sealed .two].any fun _path =>
        w.data.hasFile .active layoutVersion)
      (do
        let v ← get fun w => (w.data.active.lookup layoutVersion).getD (.file "")
        opData (Data.insertAt target layoutVersion v.created)
        opData (Data.insertAt target layoutVersion v))
      (opData (Data.insertAt target layoutVersion (.file "")))

def SysId.all : List SysId := [.one, .two]

def Data.hasSealed (d : Data) : Bool := SysId.all.any fun k => (d.sealed k).isSome

/-- Finish a partial move: the rest of /data belongs to system-m.tmp too. -/
def finishMove (m : SysId) : Script World Unit :=
  when (fun w => (w.data.tmp m).isSome) do
    packAll m
    op (mvTmpSealed m)

/-- `mount_ex -o bind /data $DATA || die`, with /data mounted. -/
def bindData : Script World Unit := do
  require (← get World.mounted)
  op fun w => { w with enabled := false }
  require (!env.fails (.bind (← get World.binds)))
  op fun w => { w with binds := w.binds + 1 }

def dualdataOpen : Script World Unit := do
  bindData env
  forM SysId.all fun k => opData (rmdirSealed k)
  forM SysId.all fun k => opData (rmdirLegacy k)
  forM SysId.all finishMove
  forM SysId.all dualdataMigrate
  when (fun w => w.data.hasSealed) (op fun w => { w with enabled := true })

/-- Nothing looks at `DUALDATA_ENABLED` between a close and the next open. -/
def dualdataClose : Script World Unit := op fun w => { w with enabled := false }

def dualdataReopen : Script World Unit := do
  dualdataClose
  dualdataOpen env

/-- The current system for `dualdata_enable`: guessed from the one sealed
directory there is, else the caller's hint, else from ro.syspart. -/
def currentSysId (hint : Option SysId) (d : Data) : SysId :=
  if (d.sealed .two).isSome ∧ (d.sealed .one).isNone then .one
  else if (d.sealed .one).isSome ∧ (d.sealed .two).isNone then .two
  else hint.getD env.syspart

def dualdataEnable (currentsysid : Option SysId) : Script World Unit := do
  forM SysId.all fun k => opData (enableSealed k)
  dualdataReopen env
  branch World.enabled (pure ()) do
    let current ← get fun w => currentSysId env currentsysid w.data
    opData (mkdirSealed current.other)
    dualdataCreateLayoutVersion (.sealed current.other)

def dualdataDisable : Script World Unit := do
  forM SysId.all fun k => opData (disableSealed k)
  dualdataReopen env

/-- The part of a switch that packs the active entries as system `p`'s. -/
def pack (p : SysId) : Script World Unit :=
  when (fun w => (w.data.sealed p).isNone) do
    opData (mkdirTmp p)
    packAll p
    op (mvTmpSealed p)

/-- The part that unpacks system `u`'s. -/
def unpack (u : SysId) : Script World Unit := do
  when (fun w => (w.data.sealed u).isSome && (w.data.tmp u).isNone) (opData (mvSealedTmp u))
  when (fun w => (w.data.tmp u).isSome) do
    unpackAll u
    opData (rmdirTmp u)

def dualdataSwitchtodata (which : Option SysId) : Script World Unit :=
  when World.enabled <|
    match which with
    | none => exit
    | some u => do
        pack u.other
        unpack u
        dualdataCreateLayoutVersion .active

/-! ## Commands -/

/-- `mount_ex "$datadev_file" /data || die` -/
def mountData : Script World Unit := do
  require (!env.fails .mountData)
  op fun w => { w with mounted := true }

/-- What follows the bootmark in `do_set`, `recovery_save` and
`recovery_load`. -/
def bootInto (which : Option SysId) : Script World Unit := do
  dualbootHacknodes env which
  mountData env
  dualdataOpen env
  dualdataSwitchtodata which
  dualdataClose

def doSet (which : Option SysId) : Script World Unit := do
  require (← dualbootWrite env which)
  bootInto env which

def doGet : Script World Unit := do
  dualdataOpen env
  dualdataClose

/-- `which` is the property dualboot.system. -/
def recoverySave (which : Option SysId) : Script World Unit := do
  require (← dualbootWrite env which)
  bootInto env which

def recoveryLoad : Script World Unit := do
  let which ← get fun w => dualbootRead w.misc
  bootInto env (some which)

def recoveryEnabledualdata (which : Option SysId) : Script World Unit := do
  mountData env
  dualdataOpen env
  dualdataEnable env which
  dualdataReopen env
  dualdataSwitchtodata which
  dualdataClose

def recoveryDisabledualdata : Script World Unit := do
  mountData env
  dualdataOpen env
  dualdataDisable env
  dualdataReopen env
  dualdataClose

end

inductive Command where
  | set (which : Option SysId)
  | get
  | save (which : Option SysId)
  | load
  | enabledualdata (which : Option SysId)
  | disabledualdata
  deriving DecidableEq

def Command.script (env : Env) : Command → Script World Unit
  | .set which => doSet env which
  | .get => doGet env
  | .save which => recoverySave env which
  | .load => recoveryLoad env
  | .enabledualdata which => recoveryEnabledualdata env which
  | .disabledualdata => recoveryDisabledualdata env

/-- A new process: the shell's own variables are not set. -/
def World.start (env : Env) (w : World) : World :=
  { w with mounted := env.mounted, enabled := false, binds := 0 }

/-- One command, killed when it asks for an operation beyond the budget. -/
def exec (env : Env) (budget : Option Nat) (c : Command) (w : World) : Outcome World Unit :=
  (c.script env).run budget (w.start env)

end Pisces.Dualboot
