import Mathlib.Algebra.Ring.Int.Defs
import Mathlib.Data.List.Basic
import Pisces.Lib.Strtol

/-!
# Numbers in sysfs

healthd and init read a number from sysfs in the same way: the file goes into a
buffer of 80 bytes on the stack, and strtol reads the buffer. The end of what was
read is computed, but it is passed as the pointer strtol stores its own end in, so
strtol never sees it: after the bytes of the file it goes on with those that were
in the buffer before.
-/

namespace Pisces.Sysfs

open Pisces.Lib.Strtol

abbrev Errno := { e : ℤ // 0 < e }

/-- What open and read make of a path. -/
inductive FileRead where
  | noOpen (errno : Errno)
  | noRead (errno : Errno)
  | content (c : List UInt8)

abbrev Files := String → FileRead

/-- The buffer before the call. The zero at its end keeps strtol inside. -/
structure Buffer where
  bytes : List UInt8
  length_eq : bytes.length = 80
  ends : bytes[79]? = some 0

/-- The buffer after a read of at most 80 bytes. -/
def Buffer.fill (buf : Buffer) (c : List UInt8) : List UInt8 :=
  c.take 80 ++ buf.bytes.drop (c.take 80).length

/-- A long has 32 bits here, and so have int and time_t. -/
def longMin : ℤ := -2 ^ 31

def longMax : ℤ := 2 ^ 31 - 1

section

variable (fs : Files)

/-- The length that read_string returns, and the buffer. -/
def readString (path : String) (buf : Buffer) : ℤ × List UInt8 :=
  match fs path with
  | .noOpen e | .noRead e => (-e.val, buf.bytes)
  | .content c => ((c.take 80).length, buf.fill c)

def readInt (path : String) (defaultValue : Int32) (buf : Buffer) : Int32 :=
  let r := readString fs path buf
  if r.1 ≤ 0 then defaultValue else .ofInt (strtol longMin longMax r.2).1

inductive AlarmTimeType where
  | alarmTime
  | rtcTime
  deriving DecidableEq

def AlarmTimeType.path : AlarmTimeType → String
  | .alarmTime => "/sys/class/rtc/rtc0/wakealarm"
  | .rtcTime => "/sys/class/rtc/rtc0/since_epoch"

/-- The return code, and what is stored in `secs` if anything is. A number out of
range is stored too. -/
def alarmGetTime (timeType : AlarmTimeType) (buf : Buffer) : ℤ × Option Int32 :=
  match fs timeType.path with
  | .noOpen _ | .noRead _ => (-1, none)
  | .content c =>
      let r := strtol longMin longMax (buf.fill c)
      (if r.2 then -1 else 0, some (.ofInt r.1))

end

/-- The number of a file with the bytes `c` is the same for any two buffers, in
both functions. -/
structure OnlyFile (c : List UInt8) : Prop where
  alarm : ∀ (fs : Files) (timeType : AlarmTimeType) (buf buf' : Buffer),
    fs timeType.path = .content c →
    alarmGetTime fs timeType buf = alarmGetTime fs timeType buf'
  init : ∀ (fs : Files) (path : String) (defaultValue : Int32) (buf buf' : Buffer),
    fs path = .content c →
    readInt fs path defaultValue buf = readInt fs path defaultValue buf'

theorem longRange : longMin ≤ 0 ∧ 0 ≤ longMax := by decide

theorem Buffer.fill_eq (buf : Buffer) {c : List UInt8} (h : c.length ≤ 79) :
    buf.fill c = c ++ buf.bytes.drop c.length := by
  rw [Buffer.fill, List.take_of_length_le (by omega)]

/-- Of a full buffer only the zero is left. -/
theorem Buffer.fill_full (buf : Buffer) {c : List UInt8} (h : c.length = 79) :
    buf.fill c = c ++ [0] := by
  have hlast : buf.bytes.drop 79 = [0] := by
    have hlen : 79 < buf.bytes.length := by rw [buf.length_eq]; decide
    have hget := buf.ends
    rw [List.getElem?_eq_getElem hlen, Option.some.injEq] at hget
    rw [List.drop_eq_getElem_cons hlen, hget,
      List.drop_of_length_le (Nat.le_of_eq buf.length_eq)]
  rw [buf.fill_eq (by omega), h, hlast]

/-- The condition under which the file decides the number. -/
def Decides (c : List UInt8) : Prop := c.length = 79 ∨ (scan c).Decided longMin longMax

theorem Decides.strtol_eq {c : List UInt8} (hc : c.length ≤ 79) (h : Decides c) (buf : Buffer) :
    strtol longMin longMax (buf.fill c) = strtol longMin longMax c := by
  rcases h with hfull | hdec
  · rw [buf.fill_full hfull]
    exact strtol_zero c []
  · rw [buf.fill_eq hc]
    exact strtol_append longRange hdec _

theorem Decides.onlyFile {c : List UInt8} (hc : c.length ≤ 79) (h : Decides c) : OnlyFile c where
  alarm := by
    intro fs timeType buf buf' hfile
    simp only [alarmGetTime, hfile, h.strtol_eq hc]
  init := by
    intro fs path defaultValue buf buf' hfile
    simp only [readInt, readString, hfile, h.strtol_eq hc]

/-- A buffer of zeros. -/
def Buffer.zeros : Buffer where
  bytes := List.replicate 80 0
  length_eq := List.length_replicate
  ends := rfl

/-- A buffer with the digit 5 at one place. -/
def Buffer.five (k : ℕ) (h : k < 79) : Buffer where
  bytes := List.replicate k 0 ++ 53 :: 0 :: List.replicate (78 - k) 0
  length_eq := by
    rw [List.length_append, List.length_replicate, List.length_cons, List.length_cons,
      List.length_replicate]
    omega
  ends := by
    rw [List.getElem?_append_right (by rw [List.length_replicate]; omega), List.length_replicate]
    obtain ⟨m, hm⟩ : ∃ m, 79 - k = m + 1 := ⟨78 - k, by omega⟩
    rw [hm, List.getElem?_cons_succ, ← List.replicate_succ, List.getElem?_replicate,
      if_pos (by omega)]

theorem strtol_zeros {c : List UInt8} (h : c.length < 79) :
    strtol longMin longMax (Buffer.zeros.fill c) = strtol longMin longMax c := by
  have hfill : Buffer.zeros.fill c = c ++ 0 :: List.replicate (79 - c.length) 0 := by
    rw [Buffer.fill_eq _ (by omega), Buffer.zeros, List.drop_replicate, ← List.replicate_succ]
    congr 2
    omega
  rw [hfill, strtol_zero]

theorem strtol_five_ne {c : List UInt8} (h : c.length < 79)
    (hdec : ¬ (scan c).Decided longMin longMax) :
    strtol longMin longMax ((Buffer.five c.length h).fill c) ≠ strtol longMin longMax c := by
  have hfill : (Buffer.five c.length h).fill c =
      c ++ 53 :: 0 :: List.replicate (78 - c.length) 0 := by
    rw [Buffer.fill_eq _ (by omega), Buffer.five, List.drop_left' List.length_replicate]
  rw [hfill]
  exact strtol_five longRange hdec _

/-- The result of alarm_get_time tells what strtol said. -/
theorem strtol_of_alarm {s s' : List UInt8}
    (hrc : (if (strtol longMin longMax s).2 then (-1 : ℤ) else 0) =
      if (strtol longMin longMax s').2 then -1 else 0)
    (hsecs : Int32.ofInt (strtol longMin longMax s).1 = .ofInt (strtol longMin longMax s').1) :
    strtol longMin longMax s = strtol longMin longMax s' := by
  have hint : ∀ t : List UInt8, (Int32.ofInt (strtol longMin longMax t).1).toInt =
      (strtol longMin longMax t).1 := by
    intro t
    obtain ⟨hlow, hhigh⟩ := @strtol_range longMin longMax (by decide) t
    exact Int32.toInt_ofInt_of_le hlow (Int.lt_of_le_of_lt hhigh (by decide))
  refine Prod.ext ?_ ?_
  · rw [← hint s, ← hint s', hsecs]
  · cases h : (strtol longMin longMax s).2 <;> cases h' : (strtol longMin longMax s').2 <;>
      simp [h, h'] at hrc ⊢

/-- The number depends only on the file if and only if the file decides it. -/
theorem onlyFile_iff {c : List UInt8} (hc : c.length ≤ 79) : OnlyFile c ↔ Decides c := by
  refine ⟨fun honly => ?_, fun h => h.onlyFile hc⟩
  by_contra hno
  rw [Decides, not_or] at hno
  have hlt : c.length < 79 := by omega
  have hsame := honly.alarm (fun _ => .content c) .rtcTime .zeros (.five c.length hlt) rfl
  simp only [alarmGetTime, Prod.mk.injEq, Option.some.injEq] at hsame
  have heq := strtol_of_alarm hsame.1 hsame.2
  rw [strtol_zeros hlt] at heq
  exact strtol_five_ne hlt hno.2 heq.symm

/-- A file with `12` and a newline decides its number. -/
theorem onlyFile_iff_newline :
    Decides [49, 50, 10] ∧ OnlyFile [49, 50, 10] ∧
      alarmGetTime (fun _ => .content [49, 50, 10]) .rtcTime .zeros = (0, some 12) := by
  have hdec : Decides [49, 50, 10] := .inr (by decide)
  exact ⟨hdec, (onlyFile_iff (by decide)).mpr hdec, by decide⟩

/-- Without the newline it is 12 or 125. And an empty file is 0 or 5, with return code 0, to
`alarm_get_time`; that is what wakealarm is when no alarm is set. -/
theorem stale_digit_read :
    alarmGetTime (fun _ => .content [49, 50]) .rtcTime .zeros = (0, some 12) ∧
      alarmGetTime (fun _ => .content [49, 50]) .rtcTime (.five 2 (by decide)) = (0, some 125) ∧
      readInt (fun _ => .content [49, 50]) AlarmTimeType.alarmTime.path 0 .zeros = 12 ∧
      readInt (fun _ => .content [49, 50]) AlarmTimeType.alarmTime.path 0
        (.five 2 (by decide)) = 125 ∧
      ¬ OnlyFile [49, 50] ∧
      alarmGetTime (fun _ => .content []) .alarmTime .zeros = (0, some 0) ∧
      alarmGetTime (fun _ => .content []) .alarmTime (.five 0 (by decide)) = (0, some 5) ∧
      ¬ OnlyFile [] := by
  have hzeros : alarmGetTime (fun _ => .content [49, 50]) .rtcTime .zeros = (0, some 12) := by
    decide
  have hfive : alarmGetTime (fun _ => .content [49, 50]) .rtcTime (.five 2 (by decide)) =
      (0, some 125) := by decide
  have hempty : alarmGetTime (fun _ => .content []) .alarmTime .zeros = (0, some 0) := by decide
  have hstale : alarmGetTime (fun _ => .content []) .alarmTime (.five 0 (by decide)) =
      (0, some 5) := by decide
  refine ⟨hzeros, hfive, by decide, by decide, fun honly => ?_, hempty, hstale, fun honly => ?_⟩
  · have hsame := honly.alarm (fun _ => .content [49, 50]) .rtcTime .zeros (.five 2 (by decide)) rfl
    rw [hzeros, hfive] at hsame
    cases hsame
  · have hsame := honly.alarm (fun _ => .content []) .alarmTime .zeros (.five 0 (by decide)) rfl
    rw [hempty, hstale] at hsame
    cases hsame

end Pisces.Sysfs
