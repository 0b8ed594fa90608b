import Pisces.Lib.Bits

/-!
# The mutex word of libp4hread

A mutex is one 32-bit integer holding the owner's tid, the mutex type, the
process-shared flag, the recursion counter and the lock state:

    bits:     name     description
    31-16     tid      owner thread's tid (recursive and errorcheck only)
    15-14     type     mutex type
    13        shared   process-shared flag
    12-2      counter  counter of recursive mutexes
    1-0       state    lock state (0, 1 or 2)

The macros of `pthread.c` come first, in the source's order and over `BitVec`,
because the code adds, subtracts and flips bits of the whole word. `lockWord`
is the word that a given owner, counter and state make up, and the lemmas
after it say what each macro answers on it. Nothing downstream looks at a bit
again.
-/

namespace Pisces.Mutex

open Pisces.Lib

/-- The C `int` a mutex is made of. -/
abbrev Word := BitVec 32

/-! ## The macros -/

def fieldMask (shift bits : Nat) : Word := ((1#32 <<< bits) - 1#32) <<< shift

def fieldToBits (val : Word) (shift bits : Nat) : Word :=
  (val &&& ((1#32 <<< bits) - 1#32)) <<< shift

def fieldFromBits (val : Word) (shift bits : Nat) : Word :=
  val.sshiftRight shift &&& ((1#32 <<< bits) - 1#32)

def mutexStateMask : Word := fieldMask 0 2

def mutexStateBitsUnlocked : Word := fieldToBits 0#32 0 2
def mutexStateBitsLockedUncontended : Word := fieldToBits 1#32 0 2
def mutexStateBitsLockedContended : Word := fieldToBits 2#32 0 2

def mutexStateBitsIsLockedUncontended (v : Word) : Bool :=
  v &&& mutexStateMask == mutexStateBitsLockedUncontended

def mutexStateBitsIsLockedContended (v : Word) : Bool :=
  v &&& mutexStateMask == mutexStateBitsLockedContended

def mutexStateBitsFlipContention (v : Word) : Word :=
  v ^^^ (mutexStateBitsLockedContended ^^^ mutexStateBitsLockedUncontended)

def mutexCounterMask : Word := fieldMask 2 11

def mutexCounterBitsWillOverflow (v : Word) : Bool :=
  v &&& mutexCounterMask == mutexCounterMask

def mutexCounterBitsIsZero (v : Word) : Bool := v &&& mutexCounterMask == 0#32

def mutexCounterBitsOne : Word := fieldToBits 1#32 2 11

def mutexSharedMask : Word := fieldMask 13 1

def mutexTypeMask : Word := fieldMask 14 2

/-- `MUTEX_TYPE_NORMAL`, `MUTEX_TYPE_RECURSIVE`, `MUTEX_TYPE_ERRORCHECK`. -/
inductive MutexType where
  | normal
  | recursive
  | errorcheck
  deriving DecidableEq, Repr

def MutexType.value : MutexType → Word
  | .normal => 0#32
  | .recursive => 1#32
  | .errorcheck => 2#32

def mutexTypeBits (t : MutexType) : Word := fieldToBits t.value 14 2

def mutexOwnerFromBits (v : Word) : Word := fieldFromBits v 16 16

def mutexOwnerToBits (tid : Word) : Word := fieldToBits tid 16 16

/-- The word `pthread_mutex_init` stores for an attribute with this type and
process-shared flag: `value |= MUTEX_SHARED_MASK` when shared, then
`value |= MUTEX_TYPE_BITS_...`. -/
def pthreadMutexInit (ty : MutexType) (pshared : Bool) : Word :=
  (if pshared then mutexSharedMask else 0#32) ||| mutexTypeBits ty

/-! ## Each macro as arithmetic on the word's value -/

theorem stateMask_toNat (v : Word) : (v &&& mutexStateMask).toNat = v.toNat % 4 := by
  rw [toNat_and_field v mutexStateMask (s := 0) (b := 2) rfl]
  omega

theorem isLockedUncontended_iff (v : Word) :
    mutexStateBitsIsLockedUncontended v = true ↔ v.toNat % 4 = 1 := by
  rw [mutexStateBitsIsLockedUncontended, beq_iff_eq, ← BitVec.toNat_inj, stateMask_toNat]
  rfl

theorem isLockedContended_iff (v : Word) :
    mutexStateBitsIsLockedContended v = true ↔ v.toNat % 4 = 2 := by
  rw [mutexStateBitsIsLockedContended, beq_iff_eq, ← BitVec.toNat_inj, stateMask_toNat]
  rfl

theorem counterMask_toNat (v : Word) :
    (v &&& mutexCounterMask).toNat = v.toNat / 4 % 2048 * 4 := by
  exact toNat_and_field v mutexCounterMask (s := 2) (b := 11) rfl

theorem counterWillOverflow_iff (v : Word) :
    mutexCounterBitsWillOverflow v = true ↔ v.toNat / 4 % 2048 = 2047 := by
  rw [mutexCounterBitsWillOverflow, beq_iff_eq, ← BitVec.toNat_inj, counterMask_toNat]
  rw [show mutexCounterMask.toNat = 8188 from rfl]
  omega

theorem counterIsZero_iff (v : Word) :
    mutexCounterBitsIsZero v = true ↔ v.toNat / 4 % 2048 = 0 := by
  rw [mutexCounterBitsIsZero, beq_iff_eq, ← BitVec.toNat_inj, counterMask_toNat]
  rw [show (0#32).toNat = 0 from rfl]
  omega

theorem typeMask_toNat (v : Word) :
    (v &&& mutexTypeMask).toNat = v.toNat / 16384 % 4 * 16384 := by
  exact toNat_and_field v mutexTypeMask (s := 14) (b := 2) rfl

theorem sharedMask_toNat (v : Word) :
    (v &&& mutexSharedMask).toNat = v.toNat / 8192 % 2 * 8192 := by
  exact toNat_and_field v mutexSharedMask (s := 13) (b := 1) rfl

theorem ownerFromBits_toNat (v : Word) :
    (mutexOwnerFromBits v).toNat = v.toNat / 65536 := by
  rw [mutexOwnerFromBits, fieldFromBits,
    sshiftRight_and_mask v _ (s := 16) (b := 16) rfl (by omega),
    toNat_and_field _ _ (s := 0) (b := 16) rfl, BitVec.toNat_ushiftRight,
    Nat.shiftRight_eq_div_pow]
  have hv := v.isLt
  omega

theorem ownerToBits_toNat (tid : Word) :
    (mutexOwnerToBits tid).toNat = tid.toNat % 65536 * 65536 := by
  rw [mutexOwnerToBits, fieldToBits, BitVec.toNat_shiftLeft,
    toNat_and_field tid _ (s := 0) (b := 16) rfl, Nat.shiftLeft_eq]
  omega

theorem flipContention_toNat {v : Word} (h : v.toNat % 4 = 1) :
    (mutexStateBitsFlipContention v).toNat = v.toNat + 1 := by
  rw [mutexStateBitsFlipContention, BitVec.toNat_xor,
    show (mutexStateBitsLockedContended ^^^ mutexStateBitsLockedUncontended).toNat = 3
      from rfl, nat_xor_three h]

/-! ## The words a mutex takes -/

section LockWord

variable {ty : MutexType} {pshared : Bool}

/-- The word of a mutex of type `ty` with this owner field, counter and
state. The unlocked word is the one with all three at zero. -/
def lockWord (ty : MutexType) (pshared : Bool) (owner counter state : Nat) : Word :=
  BitVec.ofNat 32
    (owner * 65536 + (pthreadMutexInit ty pshared).toNat + counter * 4 + state)

/-- The initial word is two disjoint fields below the owner and above the
counter. -/
theorem pthreadMutexInit_toNat (ty : MutexType) (pshared : Bool) :
    (pthreadMutexInit ty pshared).toNat =
      ty.value.toNat * 16384 + pshared.toNat * 8192 := by
  cases ty <;> cases pshared <;> rfl

theorem type_value_lt (ty : MutexType) : ty.value.toNat < 3 := by
  cases ty <;> decide

theorem lockWord_toNat {o c s : Nat} (ho : o < 65536) (hc : c < 2048) (hs : s < 4) :
    (lockWord ty pshared o c s).toNat =
      o * 65536 + ty.value.toNat * 16384 + pshared.toNat * 8192 + c * 4 + s := by
  have hty := type_value_lt ty
  have hsh := pshared.toNat_lt
  rw [lockWord, BitVec.toNat_ofNat, pthreadMutexInit_toNat]
  omega

theorem lockWord_unlocked : lockWord ty pshared 0 0 0 = pthreadMutexInit ty pshared := by
  apply BitVec.eq_of_toNat_eq
  rw [lockWord_toNat (by omega) (by omega) (by omega), pthreadMutexInit_toNat]
  omega

theorem lockWord_inj {o o' c c' s s' : Nat} (ho : o < 65536) (ho' : o' < 65536)
    (hc : c < 2048) (hc' : c' < 2048) (hs : s < 4) (hs' : s' < 4)
    (h : lockWord ty pshared o c s = lockWord ty pshared o' c' s') :
    o = o' ∧ c = c' ∧ s = s' := by
  have hn := congrArg BitVec.toNat h
  have hty := type_value_lt ty
  have hsh := pshared.toNat_lt
  rw [lockWord_toNat ho hc hs, lockWord_toNat ho' hc' hs'] at hn
  omega

theorem lockWord_type {o c s : Nat} (ho : o < 65536) (hc : c < 2048) (hs : s < 4) :
    lockWord ty pshared o c s &&& mutexTypeMask = mutexTypeBits ty := by
  apply BitVec.eq_of_toNat_eq
  have hbits : (mutexTypeBits ty).toNat = ty.value.toNat * 16384 := by cases ty <;> rfl
  have hty := type_value_lt ty
  have hsh := pshared.toNat_lt
  rw [typeMask_toNat, lockWord_toNat ho hc hs, hbits]
  omega

theorem lockWord_shared {o c s : Nat} (ho : o < 65536) (hc : c < 2048) (hs : s < 4) :
    lockWord ty pshared o c s &&& mutexSharedMask =
      if pshared then mutexSharedMask else 0#32 := by
  apply BitVec.eq_of_toNat_eq
  have hbits : (if pshared then mutexSharedMask else 0#32).toNat = pshared.toNat * 8192 := by
    cases pshared <;> rfl
  have hty := type_value_lt ty
  have hsh := pshared.toNat_lt
  rw [sharedMask_toNat, lockWord_toNat ho hc hs, hbits]
  omega

theorem lockWord_owner {o c s : Nat} (ho : o < 65536) (hc : c < 2048) (hs : s < 4) :
    (mutexOwnerFromBits (lockWord ty pshared o c s)).toNat = o := by
  have hty := type_value_lt ty
  have hsh := pshared.toNat_lt
  rw [ownerFromBits_toNat, lockWord_toNat ho hc hs]
  omega

theorem lockWord_state {o c s : Nat} (ho : o < 65536) (hc : c < 2048) (hs : s < 4) :
    (lockWord ty pshared o c s).toNat % 4 = s := by
  have hty := type_value_lt ty
  have hsh := pshared.toNat_lt
  rw [lockWord_toNat ho hc hs]
  omega

/-- Adding one to the counter field of a word whose counter has room. -/
theorem lockWord_succ {o c s : Nat} (ho : o < 65536) (hc : c + 1 < 2048) (hs : s < 4) :
    lockWord ty pshared o c s + mutexCounterBitsOne = lockWord ty pshared o (c + 1) s := by
  apply BitVec.eq_of_toNat_eq
  have hty := type_value_lt ty
  have hsh := pshared.toNat_lt
  rw [BitVec.toNat_add, lockWord_toNat ho (by omega) hs, lockWord_toNat ho hc hs,
    show mutexCounterBitsOne.toNat = 4 from rfl]
  omega

theorem lockWord_pred {o c s : Nat} (ho : o < 65536) (hc : c + 1 < 2048) (hs : s < 4) :
    lockWord ty pshared o (c + 1) s - mutexCounterBitsOne = lockWord ty pshared o c s := by
  rw [← lockWord_succ ho hc hs, BitVec.add_sub_cancel]

/-- The contention flip is 1 to 2 on the state and nothing else. -/
theorem lockWord_flip {o c : Nat} (ho : o < 65536) (hc : c < 2048) :
    mutexStateBitsFlipContention (lockWord ty pshared o c 1) = lockWord ty pshared o c 2 := by
  apply BitVec.eq_of_toNat_eq
  rw [flipContention_toNat (lockWord_state ho hc (by omega)),
    lockWord_toNat ho hc (by omega), lockWord_toNat ho hc (by omega)]

/-- The word a thread stores to acquire: its tid or-ed into the unlocked word
and the state. -/
theorem lockWord_acquire {tid : Word} (ht : tid.toNat < 65536) (st : Word)
    (hst : st.toNat < 4) :
    mutexOwnerToBits tid ||| pthreadMutexInit ty pshared ||| st =
      lockWord ty pshared tid.toNat 0 st.toNat := by
  apply BitVec.eq_of_toNat_eq
  have hty := type_value_lt ty
  have hsh := pshared.toNat_lt
  rw [BitVec.toNat_or, BitVec.toNat_or, ownerToBits_toNat, pthreadMutexInit_toNat,
    lockWord_toNat ht (by omega) hst]
  rw [nat_or_eq_add (n := tid.toNat % 65536 * 65536) (s := 16) (by omega) (by omega)]
  rw [nat_or_eq_add (s := 2) (by omega) hst]
  omega

end LockWord

end Pisces.Mutex
