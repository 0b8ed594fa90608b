import Pisces.Lib.Awk
import Pisces.Lib.Script

/-!
# The repartition script

`repartition resize` gives the data partition (27) another size, with a storage
partition (28) after it for what is left. The filesystem is shrunk first if the
partition gets smaller; then both partitions are removed, data is made again at
the same place, and the filesystem is grown to fill it.

Everything the script knows comes from texts: two listings of parted in MiB, cut
into fields, and awk programs that compare and print. The model keeps these
texts. parted, e2fsck and resize2fs are outside: what they show is a parameter,
and which of them fail is too.
-/

namespace Pisces.Repartition

open Pisces.Lib Pisces.Lib.Awk Pisces.Lib.Script

def dataPartnum : ℕ := 27
def storagePartnum : ℕ := 28
def shrinkReserveSize : ℕ := 8
def MiB : ℕ := 2 ^ 20

/-! ## The disk -/

/-- In bytes; `finish` is the byte after the last one. -/
structure Part where
  start : ℕ
  finish : ℕ
  deriving DecidableEq

def Part.size (p : Part) : ℕ := p.finish - p.start

/-- An ext4 filesystem, with what `resize2fs -P` estimates. -/
structure Fs where
  blocks : ℕ
  blocksize : ℕ
  minblocks : ℕ
  deriving DecidableEq

def Fs.bytes (f : Fs) : ℕ := f.blocks * f.blocksize

/-- The partitions are in the order parted lists them, and can go as far as
`usable`. `fs` is what the data partition holds, and `storageFiles` is about the
storage partition. As history, `made` has the data partition as mkpart made it,
with the filesystem of that moment. Sectors have 512 bytes, and parted counts
them in a signed number of 64 bits. -/
structure Disk where
  size : ℕ
  addressed : size < 2 ^ 72
  usable : ℕ
  parts : List (ℕ × Part)
  fs : Option Fs
  storageFiles : Bool
  made : Option (Part × Option Fs)

def Disk.part (d : Disk) (n : ℕ) : Option Part := d.parts.lookup n

/-- `resize_datafs` runs once before the partitions are removed and once
after. -/
inductive Stage where
  | shrink
  | fill
  deriving DecidableEq

inductive Ext where
  | umount
  | waitData (stage : Stage)
  | e2fsck (stage : Stage)
  | resize2fs (stage : Stage)
  | e2fsckAgain (stage : Stage)
  | rm (partnum : ℕ)
  | mkpart (partnum : ℕ)
  | waitStorage
  | mke2fs
  deriving DecidableEq

/-- `shown` is the number that parted shows for so many bytes with unit MiB. -/
structure Env where
  shown : ℕ → Text
  fails : Ext → Bool

section

variable (env : Env)

/-! ## Sizes -/

def Part.row (n : ℕ) (p : Part) : List Text :=
  [natText n, env.shown p.start, env.shown (p.finish - 1), env.shown p.size]

/-- The lines of a listing, each cut at the colons, without the first line and
without those about free space, whose first field is 1. -/
def partedPrint (d : Disk) : List (List Text) :=
  ["/dev/block/mmcblk0".toList, env.shown d.size] :: d.parts.map fun np => np.2.row env np.1

def datastorageLines (totalsize : Text) : List (List Text) → List Text
  | [] => []
  | line :: lines =>
      if !isTrue totalsize then datastorageLines (field line 2) lines
      else if field line 1 = natText (dataPartnum - 1) then
        print (sub (num totalsize) (num (field line 3))) :: datastorageLines totalsize lines
      else datastorageLines totalsize lines

def getDatastorageSize (d : Disk) : Text :=
  List.intercalate ['\n'] (datastorageLines ['0'] (partedPrint env d))

def getDataSize (d : Disk) : Text :=
  let dataSize := List.intercalate ['\n'] ((partedPrint env d).filterMap fun line =>
    if field line 1 = natText dataPartnum then some (field line 4) else none)
  if dataSize = [] then ['0'] else dataSize

def getDataBlocksize (d : Disk) : Text :=
  match d.fs with
  | none => natText 4096
  | some f => natText f.blocksize

def getDataMinsize (d : Disk) : Text :=
  let minblocks := match d.fs with
    | none => ['0']
    | some f => ' ' :: natText f.minblocks
  prints (fun fs =>
      add (div (div (mul (num (field fs 1)) (num (field fs 2))) 1024) 1024) (num (field fs 3)))
    (echo [minblocks, getDataBlocksize d, natText shrinkReserveSize])

/-! ## The plan -/

def tooSmall (newsize minsize : Text) : Bool :=
  exits (fun fs => lt (field fs 1) (field fs 2)) (echo [newsize, minsize])

def tooLarge (newsize datastorageSize : Text) : Bool :=
  exits (fun fs => lt (field fs 2) (field fs 1)) (echo [newsize, datastorageSize])

def storageNewsize (newsize datastorageSize : Text) : Text :=
  prints (fun fs =>
      let freesize := sub (num (field fs 2)) (num (field fs 1))
      if freesize < 64 then 0 else freesize)
    (echo [newsize, datastorageSize])

/-- `prevend` and `databegin` after a line. -/
def newbeginStep (found : Text × Text) (line : List Text) : Text × Text :=
  (if field line 1 = natText (dataPartnum - 1) then field line 3 else found.1,
    if field line 1 = natText dataPartnum then field line 2 else found.2)

/-- Where data begins: where it began, else where the partition before it
ends. -/
def dataNewbegin (d : Disk) : Text :=
  let found := (partedPrint env d).foldl newbeginStep (['0'], ['0'])
  if isTrue found.2 then found.2 else found.1

/-- A position as parted reads it. -/
inductive Pos where
  | mib (t : Text)
  | full
  deriving DecidableEq

def Pos.byte (d : Disk) : Pos → ℕ
  | .mib t => ⌊num t * MiB⌋.toNat
  | .full => d.usable

structure Plan where
  isShrinking : Bool
  shrinkto : Text
  newbegin : Pos
  newend : Pos

def plan (newsize : Text) (d : Disk) : Plan :=
  let datastorageSize := getDatastorageSize env d
  let storage := storageNewsize newsize datastorageSize
  let dataNewsize := if storage = ['0'] then datastorageSize else newsize
  let begin' := dataNewbegin env d
  let end' := prints (fun fs => add (num (field fs 1)) (num (field fs 2)))
    (echo [begin', dataNewsize])
  { isShrinking :=
      exits (fun fs => lt (field fs 1) (field fs 2)) (echo [dataNewsize, getDataSize env d])
    shrinkto := prints (fun fs => sub (num (field fs 1)) (num (field fs 2)))
      (echo [dataNewsize, natText shrinkReserveSize])
    newbegin := .mib begin'
    newend := if storage = ['0'] then .full else .mib end' }

/-! ## Carrying it out -/

def shrinkBlocks (tosize : Text) (d : Disk) : Text :=
  prints (fun fs => div (mul (mul (num (field fs 1)) 1024) 1024) (num (field fs 2)))
    (echo [tosize, getDataBlocksize d])

def Disk.withBlocks (d : Disk) (blocks : Fs → ℕ) : Disk :=
  { d with fs := d.fs.map fun f => { f with blocks := blocks f } }

/-- Without a size resize2fs fills the partition. -/
def resizeDatafs (stage : Stage) (tosize : Option Text) : Script Disk Unit := do
  require (!env.fails (.waitData stage))
  require (!env.fails (.e2fsck stage))
  require (!env.fails (.resize2fs stage))
  match tosize with
  | none =>
      op fun d => d.withBlocks fun f => ((d.part dataPartnum).elim 0 Part.size) / f.blocksize
  | some t => op fun d => d.withBlocks fun _ => ⌊num (shrinkBlocks t d)⌋.toNat
  require (!env.fails (.e2fsckAgain stage))

def Disk.rm (n : ℕ) (d : Disk) : Disk := { d with parts := d.parts.filter (·.1 ≠ n) }

/-- Its status is ignored. -/
def removePart (n : ℕ) : Script Disk Unit :=
  if env.fails (.rm n) then pure () else op (Disk.rm n)

/-- parted makes no partition over one of the two that are still there. -/
def Disk.clear (b e : Pos) (d : Disk) : Bool :=
  d.parts.all fun np => (np.1 ≠ dataPartnum ∧ np.1 ≠ storagePartnum) ∨
    np.2.finish ≤ b.byte d ∨ e.byte d ≤ np.2.start

def Disk.mkpart (n : ℕ) (b e : Pos) (d : Disk) : Disk :=
  { d with parts := d.parts ++ [(n, ⟨b.byte d, e.byte d⟩)] }

/-- `parted mkpart UDA begin end` -/
def makeData (b e : Pos) : Script Disk Unit := do
  require (!env.fails (.mkpart dataPartnum))
  require (← get (Disk.clear b e))
  op fun d => { d.mkpart dataPartnum b e with made := some (⟨b.byte d, e.byte d⟩, d.fs) }

def makeStorage (b : Pos) : Script Disk Unit := do
  require (!env.fails (.mkpart storagePartnum))
  require (← get (Disk.clear b .full))
  op (Disk.mkpart storagePartnum b .full)
  require (!env.fails .waitStorage)
  require (!env.fails .mke2fs)
  op fun d => { d with storageFiles := false }

def carryOut (p : Plan) : Script Disk Unit := do
  if p.isShrinking then resizeDatafs env .shrink (some p.shrinkto) else pure ()
  removePart env storagePartnum
  removePart env dataPartnum
  makeData env p.newbegin p.newend
  resizeDatafs env .fill none
  if p.newend = .full then pure () else makeStorage env p.newend

def recoveryResize (newsize : Text) : Script Disk Unit := do
  let datastorageSize ← get (getDatastorageSize env)
  require (datastorageSize ≠ [])
  require (← get fun d => !((d.part storagePartnum).isSome && d.storageFiles))
  require (!env.fails .umount)
  let minsize ← get getDataMinsize
  require (!tooSmall newsize minsize)
  require (!tooLarge newsize datastorageSize)
  let p ← get (plan env newsize)
  carryOut env p

end

end Pisces.Repartition
