import Pisces.Mutex.Steps

/-!
# The owned lock behind a recursive or errorcheck mutex

The abstract object is a lock that is free or held by one thread at some
depth. `OwnedLock` carries its bound in its type: a held lock's counter is
below 2048, so depths run from 1 to 2048 and nothing else can be written
down. `Result` is what the four operations may answer and do to it.

`Decodes` ties a mutex word to an abstract lock. The word has one bit of
information more, whether a waiter has been seen, and that bit is exactly
what other threads may change under the owner's feet.
-/

namespace Pisces.Mutex

variable {τ : Type}

/-- A lock that knows its owner. The depth of a held lock is its counter plus
one. -/
inductive OwnedLock (τ : Type) where
  | free
  | held (t : τ) (counter : Fin 2048)
  deriving DecidableEq, Repr

namespace OwnedLock

def depth : OwnedLock τ → Nat
  | free => 0
  | held _ c => c.val + 1

def OwnedBy (a : OwnedLock τ) (t : τ) : Prop := ∃ c, a = held t c

theorem not_ownedBy_free (t : τ) : ¬ (free : OwnedLock τ).OwnedBy t := by
  rintro ⟨c, hc⟩
  cases hc

theorem ownedBy_held {t u : τ} {c : Fin 2048} : (held t c).OwnedBy u ↔ u = t := by
  constructor
  · rintro ⟨c', hc⟩
    cases hc
    rfl
  · rintro rfl
    exact ⟨c, rfl⟩

/-- What a call by `t` that returns `r` does to the lock. -/
inductive Result (ty : MutexType) (t : τ) : OwnedLock τ → Op → Ret → OwnedLock τ → Prop
  | acquire {op : Op} : op ≠ .unlock → Result ty t free op .ok (held t 0)
  | relock {op : Op} {c : Nat} (h : c + 1 < 2048) : op ≠ .unlock → ty = .recursive →
      Result ty t (held t ⟨c, by omega⟩) op .ok (held t ⟨c + 1, h⟩)
  | overflow {op : Op} {c : Fin 2048} : op ≠ .unlock → ty = .recursive → c.val = 2047 →
      Result ty t (held t c) op .eagain (held t c)
  | deadlock {op : Op} {c : Fin 2048} : op ≠ .unlock → ty = .errorcheck →
      Result ty t (held t c) op .edeadlk (held t c)
  | busy {op : Op} {a : OwnedLock τ} : op = .trylock ∨ op = .lockTimeoutNp → ¬ a.OwnedBy t →
      Result ty t a op .ebusy a
  | unnest {c : Nat} (h : c + 1 < 2048) :
      Result ty t (held t ⟨c + 1, h⟩) .unlock .ok (held t ⟨c, by omega⟩)
  | release : Result ty t (held t 0) .unlock .ok free
  | notOwner {a : OwnedLock τ} : ¬ a.OwnedBy t → Result ty t a .unlock .eperm a

/-- What an owner gets from `lock`, `trylock` or `lock_timeout_np`. -/
theorem Result.of_owner {ty : MutexType} {t : τ} {a a' : OwnedLock τ} {op : Op} {r : Ret}
    (h : Result ty t a op r a')
    (hop : op ≠ .unlock) (ho : a.OwnedBy t) :
    (r = .ok ∧ ty = .recursive ∧ a'.OwnedBy t ∧ a'.depth = a.depth + 1) ∨
    (r = .eagain ∧ ty = .recursive ∧ a.depth = 2048 ∧ a' = a) ∨
    (r = .edeadlk ∧ ty = .errorcheck ∧ a' = a) := by
  cases h with
  | acquire _ => exact absurd ho (not_ownedBy_free t)
  | relock _ _ hty => exact .inl ⟨rfl, hty, ⟨_, rfl⟩, rfl⟩
  | overflow _ hty hc =>
      refine .inr (.inl ⟨rfl, hty, ?_, rfl⟩)
      rw [depth, hc]
  | deadlock _ hty => exact .inr (.inr ⟨rfl, hty, rfl⟩)
  | busy _ hno => exact absurd ho hno
  | unnest _ | release | notOwner _ => exact absurd rfl hop

/-- Only `t`'s ownership may differ between the two locks. -/
def OnlyBy (t : τ) (a a' : OwnedLock τ) : Prop :=
  ∀ u, u ≠ t → ∀ c, a = held u c ↔ a' = held u c

theorem OnlyBy.refl (t : τ) (a : OwnedLock τ) : OnlyBy t a a := fun _ _ _ => Iff.rfl

theorem OnlyBy.ownedBy {t u : τ} {a a' : OwnedLock τ} (h : OnlyBy t a a') (hu : u ≠ t) :
    a.OwnedBy u ↔ a'.OwnedBy u :=
  exists_congr fun c => h u hu c

theorem OnlyBy.free_held (t : τ) (c : Fin 2048) : OnlyBy t free (held t c) := by
  intro u hu c'
  constructor
  · intro h; cases h
  · intro h
    injection h with ht _
    exact absurd ht.symm hu

theorem OnlyBy.held_free (t : τ) (c : Fin 2048) : OnlyBy t (held t c) free := by
  intro u hu c'
  exact (OnlyBy.free_held t c u hu c').symm

theorem OnlyBy.held_held (t : τ) (c d : Fin 2048) : OnlyBy t (held t c) (held t d) := by
  intro u hu c'
  exact (OnlyBy.held_free t c u hu c').trans (OnlyBy.free_held t d u hu c')

end OwnedLock

/-! ## Decoding the word -/

/-- What the code assumes of the tids: every thread has its own, and all of
them fit the sixteen bits of the owner field with room to spare. -/
structure Config.TidsOk (cfg : Config τ) : Prop where
  inj : Function.Injective cfg.tid
  pos : ∀ t, 1 ≤ (cfg.tid t).toNat
  le : ∀ t, (cfg.tid t).toNat ≤ 32768

/-- The word `w` stands for the abstract lock. A held lock has two words, one
for each of the states 1 and 2. -/
def Decodes (cfg : Config τ) (ty : MutexType) (pshared : Bool) (w : Word) :
    OwnedLock τ → Prop
  | .free => w = pthreadMutexInit ty pshared
  | .held t c => w = lockWord ty pshared (cfg.tid t).toNat c 1 ∨
      w = lockWord ty pshared (cfg.tid t).toNat c 2

section Decodes

variable {cfg : Config τ} {ty : MutexType} {pshared : Bool} {w : Word} {a : OwnedLock τ}

theorem Decodes.held_iff {t : τ} {c : Fin 2048} :
    Decodes cfg ty pshared w (.held t c) ↔
      ∃ s, (s = 1 ∨ s = 2) ∧ w = lockWord ty pshared (cfg.tid t).toNat c s := by
  constructor
  · rintro (h | h)
    · exact ⟨1, .inl rfl, h⟩
    · exact ⟨2, .inr rfl, h⟩
  · rintro ⟨s, rfl | rfl, h⟩
    · exact .inl h
    · exact .inr h

/-- Every decodable word is a `lockWord`, with owner zero when it is free. -/
theorem Decodes.lockWord (ht : cfg.TidsOk) (h : Decodes cfg ty pshared w a) :
    ∃ o c s, o < 65536 ∧ c < 2048 ∧ s < 3 ∧ w = lockWord ty pshared o c s := by
  cases a with
  | free => exact ⟨0, 0, 0, by omega, by omega, by omega, by rw [lockWord_unlocked]; exact h⟩
  | held t c =>
      obtain ⟨s, hs, hw⟩ := Decodes.held_iff.mp h
      have hle := ht.le t
      exact ⟨(cfg.tid t).toNat, c, s, by omega, c.isLt, by omega, hw⟩

theorem Decodes.type_bits (ht : cfg.TidsOk) (h : Decodes cfg ty pshared w a) :
    w &&& mutexTypeMask = mutexTypeBits ty := by
  obtain ⟨o, c, s, ho, hc, hs, rfl⟩ := h.lockWord ht
  exact lockWord_type ho hc (by omega)

theorem Decodes.shared_bits (ht : cfg.TidsOk) (h : Decodes cfg ty pshared w a) :
    w &&& mutexSharedMask = if pshared then mutexSharedMask else 0#32 := by
  obtain ⟨o, c, s, ho, hc, hs, rfl⟩ := h.lockWord ht
  exact lockWord_shared ho hc (by omega)

/-- The owner field answers who the caller is. -/
theorem Decodes.owner_iff (ht : cfg.TidsOk) (h : Decodes cfg ty pshared w a) (t : τ) :
    cfg.tid t = mutexOwnerFromBits w ↔ a.OwnedBy t := by
  have hpos := ht.pos t
  cases a with
  | free =>
      have hw : w = _ := h
      rw [← lockWord_unlocked] at hw
      refine ⟨fun he => ?_, fun ho => absurd ho (OwnedLock.not_ownedBy_free t)⟩
      have ho := @lockWord_owner ty pshared 0 0 0 (by omega) (by omega) (by omega)
      rw [he, hw] at hpos
      omega
  | held u c =>
      obtain ⟨s, hs, hw⟩ := Decodes.held_iff.mp h
      have hle := ht.le u
      have ho := @lockWord_owner ty pshared (cfg.tid u).toNat c s (by omega) c.isLt (by omega)
      rw [OwnedLock.ownedBy_held, hw]
      constructor
      · intro he
        exact ht.inj (BitVec.eq_of_toNat_eq (by rw [he, ho]))
      · rintro rfl
        exact BitVec.eq_of_toNat_eq ho.symm

theorem Decodes.held_ne_init (ht : cfg.TidsOk) {t : τ} {c : Fin 2048}
    (h : Decodes cfg ty pshared w (.held t c)) : w ≠ pthreadMutexInit ty pshared := by
  intro hw
  obtain ⟨s, hs, hl⟩ := Decodes.held_iff.mp h
  have hle := ht.le t
  rw [hl, ← lockWord_unlocked] at hw
  have := lockWord_inj (by omega) (by omega) c.isLt (by omega) (by omega) (by omega) hw
  omega

theorem Decodes.init_iff (ht : cfg.TidsOk) (h : Decodes cfg ty pshared w a) :
    w = pthreadMutexInit ty pshared ↔ a = .free := by
  cases a with
  | free => exact ⟨fun _ => rfl, fun _ => h⟩
  | held t c => exact ⟨fun hw => absurd hw (h.held_ne_init ht), fun he => by cases he⟩

/-- A word decodes in one way only. -/
theorem Decodes.unique (ht : cfg.TidsOk) {b : OwnedLock τ} (h : Decodes cfg ty pshared w a)
    (hb : Decodes cfg ty pshared w b) : b = a := by
  cases a with
  | free => exact (hb.init_iff ht).mp h
  | held t c =>
      cases b with
      | free => exact absurd hb (h.held_ne_init ht)
      | held u d =>
          obtain ⟨s, hs, hw⟩ := Decodes.held_iff.mp h
          obtain ⟨s', hs', hw'⟩ := Decodes.held_iff.mp hb
          have hle := ht.le t
          have hle' := ht.le u
          rw [hw] at hw'
          obtain ⟨h1, h2, -⟩ := lockWord_inj (by omega) (by omega) c.isLt d.isLt
            (by omega) (by omega) hw'
          have htu : t = u := ht.inj (BitVec.eq_of_toNat_eq h1)
          rw [htu, Fin.ext h2]

/-- The counter bits of a held lock's word are its counter. -/
theorem Decodes.counter_bits (ht : cfg.TidsOk) {t : τ} {c : Fin 2048}
    (h : Decodes cfg ty pshared w (.held t c)) : w.toNat / 4 % 2048 = c := by
  obtain ⟨s, hs, rfl⟩ := Decodes.held_iff.mp h
  have hle := ht.le t
  have hty := type_value_lt ty
  have hsh := pshared.toNat_lt
  have hc := c.isLt
  rw [lockWord_toNat (by omega) c.isLt (by omega)]
  omega

theorem Decodes.state_of_held (ht : cfg.TidsOk) {t : τ} {c : Fin 2048}
    (h : Decodes cfg ty pshared w (.held t c)) : w.toNat % 4 = 1 ∨ w.toNat % 4 = 2 := by
  obtain ⟨s, hs, rfl⟩ := Decodes.held_iff.mp h
  have hle := ht.le t
  rw [lockWord_state (by omega) c.isLt (by omega)]
  exact hs

/-! Each way the code changes the word, on the abstract side. -/

theorem Decodes.incr (ht : cfg.TidsOk) {t : τ} {c : Nat} (hc : c + 1 < 2048)
    (h : Decodes cfg ty pshared w (.held t ⟨c, by omega⟩)) :
    Decodes cfg ty pshared (w + mutexCounterBitsOne) (.held t ⟨c + 1, hc⟩) := by
  obtain ⟨s, hs, rfl⟩ := Decodes.held_iff.mp h
  have hle := ht.le t
  rw [Decodes.held_iff]
  exact ⟨s, hs, lockWord_succ (by omega) hc (by omega)⟩

theorem Decodes.decr (ht : cfg.TidsOk) {t : τ} {c : Nat} (hc : c + 1 < 2048)
    (h : Decodes cfg ty pshared w (.held t ⟨c + 1, hc⟩)) :
    Decodes cfg ty pshared (w - mutexCounterBitsOne) (.held t ⟨c, by omega⟩) := by
  obtain ⟨s, hs, rfl⟩ := Decodes.held_iff.mp h
  have hle := ht.le t
  rw [Decodes.held_iff]
  exact ⟨s, hs, lockWord_pred (by omega) hc (by omega)⟩

theorem Decodes.flip (ht : cfg.TidsOk) (h : Decodes cfg ty pshared w a)
    (h1 : w.toNat % 4 = 1) :
    Decodes cfg ty pshared (mutexStateBitsFlipContention w) a ∧
      (mutexStateBitsFlipContention w).toNat % 4 = 2 := by
  cases a with
  | free =>
      have hw : w = _ := h
      rw [hw, ← lockWord_unlocked, lockWord_state (by omega) (by omega) (by omega)] at h1
      omega
  | held t c =>
      obtain ⟨s, hs, rfl⟩ := Decodes.held_iff.mp h
      have hle := ht.le t
      rw [lockWord_state (by omega) c.isLt (by omega)] at h1
      subst h1
      rw [lockWord_flip (by omega) c.isLt, lockWord_state (by omega) c.isLt (by omega)]
      exact ⟨.inr rfl, rfl⟩

/-- The two words a thread stores to acquire a free mutex. -/
theorem Decodes.acquire (ht : cfg.TidsOk) (t : τ) {st : Word}
    (hst : st.toNat = 1 ∨ st.toNat = 2) :
    Decodes cfg ty pshared (ownedBy (cfg.tid t) (pthreadMutexInit ty pshared) st) (.held t 0) ∧
      (ownedBy (cfg.tid t) (pthreadMutexInit ty pshared) st).toNat % 4 = st.toNat := by
  have hle := ht.le t
  rw [ownedBy, lockWord_acquire (by omega) st (by omega),
    lockWord_state (by omega) (by omega) (by omega), Decodes.held_iff]
  exact ⟨⟨st.toNat, hst, rfl⟩, rfl⟩

end Decodes

end Pisces.Mutex
