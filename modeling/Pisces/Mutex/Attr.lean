import Pisces.Mutex.Progress

/-!
# From the attribute to the futex

A mutex gets its type and its process-shared flag from an attribute, one more word of
bits, which a program sets up by a sequence of calls with whatever integers it likes.
The word keeps what was set last (`Attr`), and `pthread_mutex_init` moves it to
other bits of the mutex word. What depends on it is far away: each of the four
functions reads both fields back from the mutex word at its start, and a futex wake
with the other flavour than the wait, process-shared or private, wakes nobody.
`attributes_decide` follows the two fields all the way.

An attribute that has been destroyed holds -1. It has no type any more, but it is
shared, and `pthread_mutexattr_settype` brings it back to life as such.
-/

namespace Pisces.Mutex

open Pisces.Lib

def einval : Int := 22

/-! ## The functions -/

def mutexattrTypeMask : Word := 0x000f#32
def mutexattrSharedMask : Word := 0x0010#32

def pthreadProcessPrivate : Int := 0
def pthreadProcessShared : Int := 1

/-- `*attr = PTHREAD_MUTEX_DEFAULT`; the attribute is `none` for a null pointer. -/
def pthreadMutexattrInit : Option Word → Option Word × Int
  | some _ => (some MutexType.normal.value, 0)
  | none => (none, einval)

/-- `*attr = -1` -/
def pthreadMutexattrDestroy : Option Word → Option Word × Int
  | some _ => (some (BitVec.ofInt 32 (-1)), 0)
  | none => (none, einval)

/-- The type, if the call succeeds. -/
def pthreadMutexattrGettype (attr : Option Word) : Except Int Int :=
  match attr with
  | some a =>
      let atype := (a &&& mutexattrTypeMask).toInt
      if atype ≥ MutexType.normal.value.toInt ∧ atype ≤ MutexType.errorcheck.value.toInt then
        .ok atype
      else .error einval
  | none => .error einval

def pthreadMutexattrSettype (attr : Option Word) (type : Int) : Option Word × Int :=
  match attr with
  | some a =>
      if type ≥ MutexType.normal.value.toInt ∧ type ≤ MutexType.errorcheck.value.toInt then
        (some ((a &&& ~~~mutexattrTypeMask) ||| BitVec.ofInt 32 type), 0)
      else (some a, einval)
  | none => (none, einval)

def pthreadMutexattrSetpshared (attr : Option Word) (pshared : Int) : Option Word × Int :=
  match attr with
  | some a =>
      if pshared = pthreadProcessPrivate then (some (a &&& ~~~mutexattrSharedMask), 0)
      else if pshared = pthreadProcessShared then (some (a ||| mutexattrSharedMask), 0)
      else (some a, einval)
  | none => (none, einval)

/-- `pshared` for a pointer that is not null. -/
def pthreadMutexattrGetpshared (attr : Option Word) : Except Int Int :=
  match attr with
  | some a =>
      .ok (if a &&& mutexattrSharedMask ≠ 0#32 then pthreadProcessShared
        else pthreadProcessPrivate)
  | none => .error einval

/-- `pthread_mutex_init` on a mutex whose word is `mutex`. -/
def mutexInit (mutex : Word) (attr : Option Word) : Word × Int :=
  match attr with
  | none => (mutexTypeBits .normal, 0)
  | some a =>
      let value := if a &&& mutexattrSharedMask ≠ 0#32 then mutexSharedMask else 0#32
      let type := a &&& mutexattrTypeMask
      if type = MutexType.normal.value then (value ||| mutexTypeBits .normal, 0)
      else if type = MutexType.recursive.value then (value ||| mutexTypeBits .recursive, 0)
      else if type = MutexType.errorcheck.value then (value ||| mutexTypeBits .errorcheck, 0)
      else (mutex, einval)

/-! ## What a program does with them -/

/-- A call with the attribute, or with a null pointer in its place. -/
inductive AttrOp where
  | init
  | destroy
  | gettype
  | settype (type : Int)
  | setpshared (pshared : Int)
  | getpshared
  | mutexInit
  deriving DecidableEq, Repr

structure AttrCall where
  null : Bool
  op : AttrOp
  deriving DecidableEq, Repr

/-- The attribute and the mutex, with whatever was in memory at the start. -/
structure Objects where
  attr : Word
  mutex : Word
  deriving DecidableEq, Repr

/-- The result of a call, and what it has stored through its second pointer. -/
abbrev AttrRet := Int × Option Int

def AttrRet.ofExcept : Except Int Int → AttrRet
  | .ok value => (0, some value)
  | .error code => (code, none)

/-- The functions that change the attribute leave it alone through a null pointer. -/
def Objects.setAttr (x : Objects) (r : Option Word × Int) : Objects × AttrRet :=
  ({ x with attr := r.1.getD x.attr }, r.2, none)

def Objects.call (x : Objects) (c : AttrCall) : Objects × AttrRet :=
  let attr := if c.null then none else some x.attr
  match c.op with
  | .init => x.setAttr (pthreadMutexattrInit attr)
  | .destroy => x.setAttr (pthreadMutexattrDestroy attr)
  | .gettype => (x, .ofExcept (pthreadMutexattrGettype attr))
  | .settype type => x.setAttr (pthreadMutexattrSettype attr type)
  | .setpshared pshared => x.setAttr (pthreadMutexattrSetpshared attr pshared)
  | .getpshared => (x, .ofExcept (pthreadMutexattrGetpshared attr))
  | .mutexInit =>
      let r := mutexInit x.mutex attr
      ({ x with mutex := r.1 }, r.2, none)

/-- One call after the other, and all results. -/
def Objects.calls (x : Objects) : List AttrCall → Objects × List AttrRet
  | [] => (x, [])
  | c :: cs =>
      let r := x.call c
      let rest := r.1.calls cs
      (rest.1, r.2 :: rest.2)

/-! ## What they mean -/

/-- What an attribute says. One that is destroyed or was never set up may have no type. -/
structure Attr where
  type : Option MutexType
  pshared : Bool
  deriving DecidableEq, Repr

/-- An attribute, and the type and the flag of the mutex once it is set up. -/
structure Described where
  attr : Attr
  mutex : Option (MutexType × Bool)
  deriving DecidableEq, Repr

def typeOfInt (type : Int) : Option MutexType :=
  if type = 0 then some .normal
  else if type = 1 then some .recursive
  else if type = 2 then some .errorcheck
  else none

def MutexType.toInt : MutexType → Int
  | .normal => 0
  | .recursive => 1
  | .errorcheck => 2

def psharedOfInt (pshared : Int) : Option Bool :=
  if pshared = 0 then some false else if pshared = 1 then some true else none

/-- The result of a setter. -/
def Described.set (d : Described) : Option Attr → Described × AttrRet
  | some attr => ({ d with attr := attr }, 0, none)
  | none => (d, einval, none)

def Described.call (d : Described) (c : AttrCall) : Described × AttrRet :=
  match c.null, c.op with
  | true, .mutexInit => ({ d with mutex := some (.normal, false) }, 0, none)
  | true, _ => (d, einval, none)
  | false, .init => d.set (some ⟨some .normal, false⟩)
  | false, .destroy => d.set (some ⟨none, true⟩)
  | false, .gettype =>
      (d, match d.attr.type with
        | some type => (0, some type.toInt)
        | none => (einval, none))
  | false, .settype type => d.set ((typeOfInt type).map fun ty => { d.attr with type := some ty })
  | false, .setpshared pshared =>
      d.set ((psharedOfInt pshared).map fun flag => { d.attr with pshared := flag })
  | false, .getpshared => (d, 0, some (if d.attr.pshared then 1 else 0))
  | false, .mutexInit =>
      match d.attr.type with
      | some type => ({ d with mutex := some (type, d.attr.pshared) }, 0, none)
      | none => (d, einval, none)

def Described.calls (d : Described) : List AttrCall → Described × List AttrRet
  | [] => (d, [])
  | c :: cs =>
      let r := d.call c
      let rest := r.1.calls cs
      (rest.1, r.2 :: rest.2)

/-- What is in the word of an attribute. -/
def attrOf (a : Word) : Attr where
  type :=
    if a &&& mutexattrTypeMask = 0#32 then some .normal
    else if a &&& mutexattrTypeMask = 1#32 then some .recursive
    else if a &&& mutexattrTypeMask = 2#32 then some .errorcheck
    else none
  pshared := a &&& mutexattrSharedMask ≠ 0#32

/-- The words are what the description says. -/
structure Describes (d : Described) (x : Objects) : Prop where
  attr : attrOf x.attr = d.attr
  mutex : ∀ ty pshared, d.mutex = some (ty, pshared) → x.mutex = pthreadMutexInit ty pshared

/-! ## Call by call -/

section Bits

variable {a b m n : Word}

/-- Clearing a field leaves the other alone. -/
theorem and_cleared (h : ~~~m &&& n = n) : (a &&& ~~~m) &&& n = a &&& n := by
  rw [BitVec.and_assoc, h]

theorem and_cleared_self : (a &&& ~~~m) &&& m = 0#32 := by
  rw [BitVec.and_assoc, BitVec.and_comm (~~~m), BitVec.and_not_self]
  exact BitVec.and_zero

/-- The type field after `settype`. -/
theorem settype_type (h : b &&& mutexattrTypeMask = b) :
    (a &&& ~~~mutexattrTypeMask ||| b) &&& mutexattrTypeMask = b := by
  rw [BitVec.and_or_distrib_right, and_cleared_self, BitVec.zero_or, h]

theorem settype_shared (h : b &&& mutexattrSharedMask = 0#32) :
    (a &&& ~~~mutexattrTypeMask ||| b) &&& mutexattrSharedMask = a &&& mutexattrSharedMask := by
  rw [BitVec.and_or_distrib_right, and_cleared (by decide), h, BitVec.or_zero]

theorem setshared_type :
    (a ||| mutexattrSharedMask) &&& mutexattrTypeMask = a &&& mutexattrTypeMask := by
  have hzero : mutexattrSharedMask &&& mutexattrTypeMask = 0#32 := by decide
  rw [BitVec.and_or_distrib_right, hzero, BitVec.or_zero]

theorem setshared_shared : (a ||| mutexattrSharedMask) &&& mutexattrSharedMask ≠ 0#32 := by
  rw [BitVec.and_or_distrib_right, Ne, BitVec.or_eq_zero_iff]
  exact fun h => absurd h.2 (by decide)

end Bits

theorem attrOf_settype (a : Word) (ty : MutexType) :
    attrOf ((a &&& ~~~mutexattrTypeMask) ||| ty.value) =
      { attrOf a with type := some ty } := by
  have htype : ty.value &&& mutexattrTypeMask = ty.value := by cases ty <;> decide
  have hshared : ty.value &&& mutexattrSharedMask = 0#32 := by cases ty <;> decide
  simp only [attrOf, settype_type htype, settype_shared hshared]
  cases ty <;> rfl

/-- The flag `pshared` in the word `a`. -/
theorem attrOf_setpshared (a : Word) (pshared : Bool) :
    attrOf (if pshared then a ||| mutexattrSharedMask else a &&& ~~~mutexattrSharedMask) =
      { attrOf a with pshared := pshared } := by
  have htype : ~~~mutexattrSharedMask &&& mutexattrTypeMask = mutexattrTypeMask := by decide
  cases pshared with
  | false =>
      simp only [Bool.false_eq_true, if_false, attrOf, and_cleared htype, and_cleared_self]
      rfl
  | true =>
      simp only [if_true, attrOf, setshared_type, setshared_shared, ne_eq, not_false_eq_true,
        decide_true]

/-- The integers that `settype` takes. -/
theorem typeOfInt_some {type : Int} {ty : MutexType} (h : typeOfInt type = some ty) :
    type = ty.toInt := by
  simp only [typeOfInt] at h
  split at h
  · obtain rfl := Option.some.inj h
    assumption
  · split at h
    · obtain rfl := Option.some.inj h
      assumption
    · split at h
      · obtain rfl := Option.some.inj h
        assumption
      · cases h

theorem typeOfInt_none {type : Int} (h : typeOfInt type = none) : ¬ (type ≥ 0 ∧ type ≤ 2) := by
  simp only [typeOfInt] at h
  split at h
  · cases h
  · split at h
    · cases h
    · split at h
      · cases h
      · omega

theorem settype_eq (a : Word) (type : Int) :
    pthreadMutexattrSettype (some a) type =
      match typeOfInt type with
      | some ty => (some ((a &&& ~~~mutexattrTypeMask) ||| ty.value), 0)
      | none => (some a, einval) := by
  cases hty : typeOfInt type with
  | none => exact if_neg (typeOfInt_none hty)
  | some ty =>
      rw [typeOfInt_some hty]
      cases ty <;> rfl

theorem setpshared_eq (a : Word) (pshared : Int) :
    pthreadMutexattrSetpshared (some a) pshared =
      match psharedOfInt pshared with
      | some flag =>
          (some (if flag then a ||| mutexattrSharedMask else a &&& ~~~mutexattrSharedMask), 0)
      | none => (some a, einval) := by
  unfold psharedOfInt pthreadMutexattrSetpshared
  by_cases hprivate : pshared = 0
  · subst hprivate
    rfl
  by_cases hshared : pshared = 1
  · subst hshared
    rfl
  · have hprivate' : ¬ pshared = pthreadProcessPrivate := hprivate
    have hshared' : ¬ pshared = pthreadProcessShared := hshared
    simp only [if_neg hprivate', if_neg hshared', if_neg hprivate, if_neg hshared]

/-- The type field is a number below 16. -/
theorem typeField_toInt (a : Word) :
    (a &&& mutexattrTypeMask).toInt = (a &&& mutexattrTypeMask).toNat ∧
      (a &&& mutexattrTypeMask).toNat < 16 := by
  have hlt : (a &&& mutexattrTypeMask).toNat < 16 := by
    rw [BitVec.toNat_and]
    exact Nat.lt_of_le_of_lt Nat.and_le_right (by decide)
  exact ⟨BitVec.toInt_eq_toNat_of_lt (by omega), hlt⟩

theorem gettype_eq (a : Word) :
    AttrRet.ofExcept (pthreadMutexattrGettype (some a)) =
      match (attrOf a).type with
      | some type => (0, some type.toInt)
      | none => (einval, none) := by
  obtain ⟨htoInt, hlt⟩ := typeField_toInt a
  have hiff : ∀ k : ℕ, k < 16 → (a &&& mutexattrTypeMask = BitVec.ofNat 32 k ↔
      (a &&& mutexattrTypeMask).toNat = k) := by
    intro k hk
    rw [← BitVec.toNat_inj, BitVec.toNat_ofNat, Nat.mod_eq_of_lt (by omega)]
  have hnormal : MutexType.normal.value.toInt = 0 := rfl
  have herrorcheck : MutexType.errorcheck.value.toInt = 2 := rfl
  simp only [pthreadMutexattrGettype, attrOf, htoInt, hnormal, herrorcheck,
    hiff 0 (by decide), hiff 1 (by decide), hiff 2 (by decide)]
  generalize (a &&& mutexattrTypeMask).toNat = k at hlt ⊢
  by_cases hvalid : k ≤ 2
  · obtain rfl | rfl | rfl : k = 0 ∨ k = 1 ∨ k = 2 := by omega
    all_goals rfl
  · have hno : ¬ ((k : Int) ≥ 0 ∧ (k : Int) ≤ 2) := by omega
    rw [if_neg hno, if_neg (by omega), if_neg (by omega), if_neg (by omega)]
    rfl

theorem mutexInit_eq (m a : Word) :
    mutexInit m (some a) =
      match (attrOf a).type with
      | some type => (pthreadMutexInit type (attrOf a).pshared, 0)
      | none => (m, einval) := by
  have hvalue : (if a &&& mutexattrSharedMask ≠ 0#32 then mutexSharedMask else 0#32) =
      if (attrOf a).pshared then mutexSharedMask else 0#32 := by
    simp only [attrOf, decide_eq_true_eq]
  simp only [mutexInit, hvalue]
  simp only [attrOf, MutexType.value, pthreadMutexInit]
  by_cases hnormal : a &&& mutexattrTypeMask = 0#32
  · simp [hnormal]
  by_cases hrecursive : a &&& mutexattrTypeMask = 1#32
  · simp [hrecursive]
  by_cases herrorcheck : a &&& mutexattrTypeMask = 2#32
  · simp [herrorcheck]
  · simp [hnormal, hrecursive, herrorcheck]

/-- Every call does to the words what it does to the description, with the same result. -/
theorem Describes.call {d : Described} {x : Objects} (h : Describes d x) (c : AttrCall) :
    Describes (d.call c).1 (x.call c).1 ∧ (x.call c).2 = (d.call c).2 := by
  have hset : ∀ {a : Word} {attr : Attr}, attrOf a = attr →
      Describes { d with attr := attr } { x with attr := a } := fun ha => ⟨ha, h.mutex⟩
  obtain ⟨null, op⟩ := c
  cases null with
  | true =>
      cases op with
      | mutexInit =>
          refine ⟨⟨h.attr, fun ty pshared hsome => ?_⟩, rfl⟩
          obtain ⟨rfl, rfl⟩ := Prod.mk.inj (Option.some.inj hsome)
          rfl
      | _ => exact ⟨h, rfl⟩
  | false =>
      cases op with
      | init =>
          have hnormal : attrOf MutexType.normal.value = ⟨some .normal, false⟩ := by decide
          exact ⟨hset hnormal, rfl⟩
      | destroy =>
          have hgone : attrOf (BitVec.ofInt 32 (-1)) = ⟨none, true⟩ := by decide
          exact ⟨hset hgone, rfl⟩
      | gettype =>
          refine ⟨h, (gettype_eq x.attr).trans ?_⟩
          rw [h.attr]
          rfl
      | getpshared =>
          refine ⟨h, ?_⟩
          simp only [Described.call, ← h.attr, attrOf, decide_eq_true_eq]
          rfl
      | settype type =>
          simp only [Objects.call, Described.call, Bool.false_eq_true, if_false, settype_eq]
          cases typeOfInt type with
          | none => exact ⟨h, rfl⟩
          | some ty => exact ⟨hset ((attrOf_settype x.attr ty).trans (by rw [h.attr])), rfl⟩
      | setpshared pshared =>
          simp only [Objects.call, Described.call, Bool.false_eq_true, if_false, setpshared_eq]
          cases psharedOfInt pshared with
          | none => exact ⟨h, rfl⟩
          | some flag =>
              exact ⟨hset ((attrOf_setpshared x.attr flag).trans (by rw [h.attr])), rfl⟩
      | mutexInit =>
          simp only [Objects.call, Described.call, Bool.false_eq_true, if_false, mutexInit_eq,
            h.attr]
          cases d.attr.type with
          | none => exact ⟨h, rfl⟩
          | some ty =>
              refine ⟨⟨h.attr, fun ty' pshared hsome => ?_⟩, rfl⟩
              obtain ⟨rfl, rfl⟩ := Prod.mk.inj (Option.some.inj hsome)
              rfl

theorem Describes.calls {d : Described} {x : Objects} (h : Describes d x) (cs : List AttrCall) :
    Describes (d.calls cs).1 (x.calls cs).1 ∧ (x.calls cs).2 = (d.calls cs).2 := by
  induction cs generalizing d x with
  | nil => exact ⟨h, rfl⟩
  | cons c cs ih =>
      obtain ⟨hcall, hret⟩ := h.call c
      obtain ⟨hrest, hrets⟩ := ih hcall
      refine ⟨hrest, ?_⟩
      simp only [Objects.calls, Described.calls, hret, hrets]

/-! ## All the way -/

variable {τ : Type} [DecidableEq τ] {cfg : Config τ} {ty : MutexType} {pshared : Bool} {s : State τ}

/-- The type and the flag are where `pthread_mutex_init` put them, and every futex call uses
the flag. -/
structure Labelled (ty : MutexType) (pshared : Bool) (s : State τ) : Prop where
  type : s.word &&& mutexTypeMask = mutexTypeBits ty
  shared : s.word &&& mutexSharedMask = sharedWord pshared
  waits : ∀ t pc, (s.pc t).afterWait = some pc → (s.pc t).waitsShared = pshared
  wakes : ∀ t sh, (s.pc t).wakesShared = some sh → sh = pshared

omit [DecidableEq τ] in
theorem sharedWord_ne_zero : (sharedWord pshared != 0#32) = pshared := by
  cases pshared <;> decide

theorem init_shared : pthreadMutexInit ty pshared &&& mutexSharedMask = sharedWord pshared := by
  cases ty <;> cases pshared <;> decide

theorem NormInv.labelled {st : NState} {h : Option τ} (hinv : NormInv pshared s st h) :
    Labelled .normal pshared s where
  type := by rw [hinv.word, NState.word_type]
  shared := by rw [hinv.word, NState.word_shared]
  waits t pc haw := by
    obtain ⟨op, -, hwait, -⟩ := (hinv.locals t).of_afterWait haw
    rw [hwait]
    exact sharedWord_ne_zero
  wakes t sh hsh := by
    rw [(hinv.locals t).of_wakesShared hsh, Pc.wakesShared, sharedWord_ne_zero] at hsh
    exact (Option.some.inj hsh).symm

theorem RecInv.labelled {a : OwnedLock τ} (ht : cfg.TidsOk) (hinv : RecInv cfg ty pshared s a) :
    Labelled ty pshared s where
  type := hinv.decodes.type_bits ht
  shared := hinv.decodes.shared_bits ht
  waits t pc haw := by
    obtain ⟨op, m, mvalue, hwait, -⟩ := (hinv.locals t).of_afterWait haw
    have hl := hinv.locals t
    rw [hwait] at hl ⊢
    rw [Pc.waitsShared, hl.2.1.1, init_shared, sharedWord_ne_zero]
  wakes t sh hsh := by
    obtain ⟨shared, hwake, hshared⟩ := (hinv.locals t).of_wakesShared hsh
    rw [hwake, Pc.wakesShared, hshared, init_shared, sharedWord_ne_zero] at hsh
    exact (Option.some.inj hsh).symm

theorem labelled_reachable (ht : cfg.TidsOk) {es : List (Event τ)}
    (hrun : Run (step cfg) (HolderUnlocksNormal ty) (Mutex.init ty pshared) es s) :
    Labelled ty pshared s := by
  by_cases hty : ty = .normal
  · subst hty
    obtain ⟨st, h, hinv⟩ := normInv_reachable (hrun.imp fun _ _ _ hok _ => hok rfl)
    exact hinv.labelled
  · obtain ⟨a, hinv⟩ := recInv_reachable ht hty hrun
    exact hinv.labelled ht

/-- All threads outside, and the mutex word as it is. -/
def fresh (w : Word) : State τ := { word := w, pc := fun _ => .idle, queue := [], log := [] }

/-- Whatever was in memory, whatever calls are made on the attribute and the mutex with
whatever arguments: their results are those of a record of the type and the flag that were
set last, and once `pthread_mutex_init` has succeeded, the type and the flag it found are
those of the mutex in every state of every run on it, down to the flavour of every futex
wait and wake. -/
theorem attributes_decide (ht : cfg.TidsOk) (x : Objects) (cs : List AttrCall) :
    (x.calls cs).2 = ((Described.mk (attrOf x.attr) none).calls cs).2 ∧
    attrOf (x.calls cs).1.attr = ((Described.mk (attrOf x.attr) none).calls cs).1.attr ∧
    ∀ ty pshared, ((Described.mk (attrOf x.attr) none).calls cs).1.mutex = some (ty, pshared) →
      ∀ es s, Run (step cfg) (HolderUnlocksNormal ty) (fresh (x.calls cs).1.mutex) es s →
        s.word &&& mutexTypeMask = mutexTypeBits ty ∧
        s.word &&& mutexSharedMask = sharedWord pshared ∧
        (∀ t pc, (s.pc t).afterWait = some pc → (s.pc t).waitsShared = pshared) ∧
        ∀ t sh, (s.pc t).wakesShared = some sh → sh = pshared := by
  have hstart : Describes ⟨attrOf x.attr, none⟩ x := ⟨rfl, fun _ _ hno => by cases hno⟩
  obtain ⟨hend, hrets⟩ := hstart.calls cs
  refine ⟨hrets, hend.attr, fun ty pshared hmutex es s hrun => ?_⟩
  rw [hend.mutex ty pshared hmutex] at hrun
  obtain ⟨htype, hshared, hwaits, hwakes⟩ := labelled_reachable ht hrun
  exact ⟨htype, hshared, hwaits, hwakes⟩

/-- A destroyed attribute comes back as a shared one. -/
def revived : List AttrCall := [⟨false, .destroy⟩, ⟨false, .settype 1⟩, ⟨false, .mutexInit⟩]

/-- Thread `a` has the mutex, and thread `b` is at its futex wait. -/
def lockThenWait {T : Type} (a b : T) : List (Event T) :=
  [.call a .lock, .step a, .step a, .call b .lock, .step b, .step b]

theorem attributes_decide_revived :
    ∃ s, Run (step twoThreads) (HolderUnlocksNormal .recursive)
        (fresh ((Objects.mk 7#32 5#32).calls revived).1.mutex) (lockThenWait 0 1) s ∧
      ((Objects.mk 7#32 5#32).calls revived).2 = [(0, none), (0, none), (0, none)] ∧
      (s.pc 1).waitsShared = true := by
  have hsome : (runEvents (step twoThreads)
      (fresh ((Objects.mk 7#32 5#32).calls revived).1.mutex) (lockThenWait 0 1)).isSome := by
    decide
  have hpc : ((Option.get _ hsome).pc 1).afterWait = some (.reload .lock 0x00006000#32) := by
    decide +revert
  have hrun : Run (step twoThreads) (HolderUnlocksNormal .recursive)
      (fresh ((Objects.mk 7#32 5#32).calls revived).1.mutex) (lockThenWait 0 1) _ :=
    Run.of_runEvents (fun _ _ _ hty => by cases hty) (Option.some_get hsome).symm
  obtain ⟨hrets, -, hlabel⟩ := attributes_decide twoThreads_tidsOk (Objects.mk 7#32 5#32) revived
  obtain ⟨-, -, hwaits, -⟩ := hlabel .recursive true (by decide) _ _ hrun
  exact ⟨_, hrun, hrets.trans (by decide), hwaits 1 _ hpc⟩

end Pisces.Mutex
