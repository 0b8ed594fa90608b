import Mathlib.Data.Int.Notation
import Mathlib.Data.Nat.Notation
import Mathlib.Tactic.Common

/-!
# The dB information in a TLV

A TLV is a type, a size in bytes and a payload, in 32-bit words; the payload of a
container is TLVs again. `snd_tlv_parse_dB_info` looks for the first one that has
dB information. A pointer into the words is what is left of them from there on,
and reading a word that is not there has no answer.

The function has no result for "nothing here": what is no dB TLV is an error, and
the loop over a container's entries returns whatever its first entry gives. So
the search is a walk down the first entries, and it goes two words further with
each level. Only the room left is counted: a container's size rounded up to whole
words, less the eight bytes of the next header. If a container has room for one
word only, that difference wraps around, and then nothing is checked any more.
-/

namespace Pisces.Mixer

def einval : ℤ := 22

def sndCtlTlvtContainer : UInt32 := 0x0000
def sndCtlTlvtDbScale : UInt32 := 0x0001
def sndCtlTlvtDbLinear : UInt32 := 0x0002
def sndCtlTlvtDbRange : UInt32 := 0x0003
def sndCtlTlvtDbMinmax : UInt32 := 0x0004
def sndCtlTlvtDbMinmaxMute : UInt32 := 0x0005

def maxTlvRangeSize : UInt32 := 256

/-- `int_index(size)` -/
def intIndex (size : UInt32) : UInt32 := (size + 4 - 1) / 4

/-- The types of the second group of cases; `HAVE_SOFT_FLOAT` is not defined. -/
def isDbType (type : UInt32) : Bool :=
  type = sndCtlTlvtDbScale || type = sndCtlTlvtDbMinmax || type = sndCtlTlvtDbMinmaxMute ||
    type = sndCtlTlvtDbLinear || type = sndCtlTlvtDbRange

def minsize (type : UInt32) : UInt32 := if type = sndCtlTlvtDbRange then 4 * 4 else 2 * 4

theorem intIndex_toNat_lt (size : UInt32) : (intIndex size).toNat < 1073741824 := by
  have h := (size + 4 - 1).toNat_lt
  rw [intIndex, UInt32.toNat_div]
  show (size + 4 - 1).toNat / 4 < _
  omega

/-- The next entry of a container is further on. -/
theorem len_pos (size : UInt32) : 0 < (intIndex size + 2).toNat := by
  have h := intIndex_toNat_lt size
  rw [UInt32.toNat_add]
  show 0 < ((intIndex size).toNat + 2) % 4294967296
  omega

mutual

/-- `snd_tlv_parse_dB_info`: its result and what it leaves in `*db_tlvp`. -/
def mixerTlvParseDbInfo (tlv : List UInt32) (tlvSize : UInt32) :
    Option (ℤ × Option (List UInt32)) :=
  match tlv with
  | type :: size :: rest =>
      if size > tlvSize - 2 * 4 then some (-einval, none)
      else if type = sndCtlTlvtContainer then parseEntries rest (intIndex size * 4)
      else if isDbType type then
        if size < minsize type then some (-einval, none)
        else if size > maxTlvRangeSize then some (-einval, none)
        else some ((size + 4 * 2).toNat, some (type :: size :: rest))
      else some (-einval, none)
  | _ => none
termination_by (tlv.length, 0)

/-- Its `while (size > 0)` over the entries of a container. -/
def parseEntries (tlv : List UInt32) (size : UInt32) : Option (ℤ × Option (List UInt32)) :=
  if size > 0 then
    match mixerTlvParseDbInfo tlv size with
    | none => none
    | some (err, db) =>
        if err < 0 then some (err, db)
        else if err > 0 then some (err, db)
        else
          match hsize : tlv[1]? with
          | none => none
          | some size₁ =>
              let len := intIndex size₁ + 2
              parseEntries (tlv.drop len.toNat) (size - len * 4)
  else some (-einval, none)
termination_by (tlv.length, 1)
decreasing_by
  · simp [Prod.lex_def]
  · have hlen := len_pos size₁
    obtain ⟨htwo, -⟩ := List.getElem?_eq_some_iff.mp hsize
    refine Prod.Lex.left _ _ ?_
    rw [List.length_drop]
    omega

end

/-! ## What a call can give -/

/-- The bytes left after a header. A single word has room for none, and is taken
for almost as much as a 32-bit number can say. -/
def room (n : ℕ) : ℕ := if n < 8 then n + 4294967288 else n - 8

/-- A size in whole words, in bytes. -/
def wholeWords (size : ℕ) : ℕ := (size + 3) / 4 * 4

theorem wholeWords_mod (size : ℕ) : wholeWords size % 4 = 0 := by
  unfold wholeWords
  omega

theorem wholeWords_pos {size : ℕ} : 0 < wholeWords size ↔ 0 < size := by
  unfold wholeWords
  omega

theorem room_toNat (n : UInt32) : (n - 2 * 4).toNat = room n.toNat := by
  have hn := n.toNat_lt
  rw [UInt32.toNat_sub, room]
  show (4294967296 - 8 + n.toNat) % 4294967296 = _
  split <;> omega

theorem fits_iff {size n : UInt32} : ¬ size > n - 2 * 4 ↔ size.toNat ≤ room n.toNat := by
  rw [gt_iff_lt, UInt32.lt_iff_toNat_lt, room_toNat]
  omega

/-- In a source of whole words no size that passes the check wraps around. -/
theorem wholeWords_toNat {n : ℕ} {size : UInt32} (hn : n % 4 = 0) (hlt : n < 4294967296)
    (hroom : size.toNat ≤ room n) : (intIndex size * 4).toNat = wholeWords size.toNat := by
  have hmax : size.toNat ≤ 4294967292 := by
    unfold room at hroom
    split at hroom <;> omega
  have hadd : (size + 4 - 1).toNat = size.toNat + 3 := by
    rw [UInt32.toNat_sub, UInt32.toNat_add]
    show (4294967296 - 1 + (size.toNat + 4) % 4294967296) % 4294967296 = _
    omega
  rw [UInt32.toNat_mul, intIndex, UInt32.toNat_div, hadd]
  show (size.toNat + 3) / 4 * 4 % 4294967296 = _
  unfold wholeWords
  omega

/-- The size of a dB TLV with its header. -/
theorem size_add_header {size : UInt32} (h : size ≤ maxTlvRangeSize) :
    (size + 4 * 2).toNat = size.toNat + 8 := by
  have hle : size.toNat ≤ 256 := UInt32.le_iff_toNat_le.mp h
  rw [UInt32.toNat_add]
  show (size.toNat + 8) % 4294967296 = _
  omega

/-- An error, what the entries of a container give, or a dB TLV. -/
theorem parse_inv {tlv : List UInt32} {tlvSize : UInt32} {r : ℤ} {db : Option (List UInt32)}
    (h : mixerTlvParseDbInfo tlv tlvSize = some (r, db)) :
    r = -einval ∨ ∃ type size rest, tlv = type :: size :: rest ∧
      size.toNat ≤ room tlvSize.toNat ∧
      (type = sndCtlTlvtContainer ∧ parseEntries rest (intIndex size * 4) = some (r, db) ∨
        isDbType type = true ∧ minsize type ≤ size ∧ size ≤ maxTlvRangeSize ∧
          r = (size + 4 * 2).toNat) := by
  have herr : ∀ {r' : ℤ}, some (r', (none : Option (List UInt32))) = some (r, db) → r = r' :=
    fun he => (Prod.mk.inj (Option.some.inj he)).1.symm
  match tlv with
  | [] | [_] =>
      rw [mixerTlvParseDbInfo] at h
      · cases h
      all_goals simp
  | type :: size :: rest =>
      rw [mixerTlvParseDbInfo] at h
      split at h
      · exact .inl (herr h)
      · next hroom =>
          refine or_iff_not_imp_left.mpr fun hr => ⟨type, size, rest, rfl, fits_iff.mp hroom, ?_⟩
          split at h
          · next htype => exact .inl ⟨htype, h⟩
          · right
            split at h
            · next hdb =>
                split at h
                · exact absurd (herr h) hr
                · next hmin =>
                    split at h
                    · exact absurd (herr h) hr
                    · next hmax =>
                        exact ⟨hdb, UInt32.not_lt.mp hmin, UInt32.not_lt.mp hmax,
                          (Prod.mk.inj (Option.some.inj h)).1.symm⟩
            · exact absurd (herr h) hr

/-- If its first entry does not give 0, a container gives what that gives. -/
theorem parseEntries_eq {tlv : List UInt32} {size : UInt32}
    (hne : ∀ r db, mixerTlvParseDbInfo tlv size = some (r, db) → r ≠ 0) :
    parseEntries tlv size =
      if size > 0 then mixerTlvParseDbInfo tlv size else some (-einval, none) := by
  rw [parseEntries]
  split
  case isFalse => rfl
  case isTrue =>
    cases hp : mixerTlvParseDbInfo tlv size with
    | none => rfl
    | some p =>
        obtain ⟨err, db⟩ := p
        rcases Int.lt_or_gt_of_ne (hne err db hp) with hneg | hpos
        · simp only [if_pos hneg]
        · have hnot : ¬ err < 0 := by omega
          simp only [if_neg hnot, gt_iff_lt, if_pos hpos]

/-- There is no result for "nothing here". -/
theorem parse_ne_zero (tlv : List UInt32) (tlvSize : UInt32) :
    ∀ r db, mixerTlvParseDbInfo tlv tlvSize = some (r, db) → r ≠ 0 := by
  -- the entries of a container are fewer words
  induction hlen : tlv.length using Nat.strongRecOn generalizing tlv tlvSize with
  | _ n ih =>
      intro r db h
      rcases parse_inv h with hr | ⟨type, size, rest, htlv, -, ⟨-, hentries⟩ | ⟨-, -, hmax, hr⟩⟩
      · rw [hr]
        decide
      · have hshort : rest.length < n := by
          rw [← hlen, htlv]
          simp only [List.length_cons]
          omega
        have hrest := ih _ hshort rest (intIndex size * 4) rfl
        rw [parseEntries_eq hrest] at hentries
        split at hentries
        · exact hrest r db hentries
        · obtain ⟨hr, -⟩ := Prod.mk.inj (Option.some.inj hentries)
          rw [← hr]
          decide
      · rw [hr, size_add_header hmax]
        omega

/-! ## The walk, seen from the words -/

/-- In a source of `n` bytes the words lead to a dB TLV: they begin with it, or with
a container whose first entry leads to it. The TLV's type and size and the words
after its header are given. -/
inductive Leads : ℕ → List UInt32 → UInt32 → UInt32 → List UInt32 → Prop
  | db {n : ℕ} {type size : UInt32} {rest : List UInt32} : size.toNat ≤ room n →
      isDbType type = true → minsize type ≤ size → size ≤ maxTlvRangeSize →
      Leads n (type :: size :: rest) type size rest
  | container {n : ℕ} {size type' size' : UInt32} {rest rest' : List UInt32} :
      size.toNat ≤ room n → 0 < size → Leads (wholeWords size.toNat) rest type' size' rest' →
      Leads n (sndCtlTlvtContainer :: size :: rest) type' size' rest'

theorem Leads.parse {n : ℕ} {tlvSize type size : UInt32} {tlv rest : List UInt32}
    (h : Leads n tlv type size rest) (hsize : tlvSize.toNat = n) (hn : n % 4 = 0) :
    mixerTlvParseDbInfo tlv tlvSize =
      some (((size.toNat + 8 : ℕ) : ℤ), some (type :: size :: rest)) := by
  induction h generalizing tlvSize with
  | @db n type size rest hroom htype hmin hmax =>
      have hne : type ≠ sndCtlTlvtContainer := by
        rintro rfl
        exact absurd htype (by decide)
      rw [← hsize] at hroom
      rw [mixerTlvParseDbInfo, if_neg (fits_iff.mpr hroom), if_neg hne, if_pos htype,
        if_neg (UInt32.not_lt.mpr hmin), if_neg (UInt32.not_lt.mpr hmax), size_add_header hmax]
  | @container n size type' size' rest rest' hroom hpos hlead ih =>
      have hwhole := wholeWords_toNat hn (by rw [← hsize]; exact tlvSize.toNat_lt) hroom
      have hentries : intIndex size * 4 > 0 := by
        rw [gt_iff_lt, UInt32.lt_iff_toNat_lt, hwhole]
        exact wholeWords_pos.mpr (UInt32.lt_iff_toNat_lt.mp hpos)
      rw [← hsize] at hroom
      rw [mixerTlvParseDbInfo, if_neg (fits_iff.mpr hroom), if_pos rfl,
        parseEntries_eq (parse_ne_zero _ _), if_pos hentries]
      exact ih hwhole (wholeWords_mod _)

/-- The words lead to one dB TLV only. -/
theorem Leads.unique {tlvSize type size type' size' : UInt32} {tlv rest rest' : List UInt32}
    (h : Leads tlvSize.toNat tlv type size rest) (h' : Leads tlvSize.toNat tlv type' size' rest')
    (hn : tlvSize.toNat % 4 = 0) : type' = type ∧ size' = size ∧ rest' = rest := by
  have hparse := (h'.parse rfl hn).symm.trans (h.parse rfl hn)
  simp only [Option.some.injEq, Prod.mk.injEq, List.cons.injEq] at hparse
  exact hparse.2

/-- A result that is no error comes from a dB TLV that the words lead to. -/
theorem leads_of_parse {tlvSize : UInt32} {tlv : List UInt32} {r : ℤ}
    {db : Option (List UInt32)} (hn : tlvSize.toNat % 4 = 0)
    (h : mixerTlvParseDbInfo tlv tlvSize = some (r, db)) (hr : 0 ≤ r) :
    ∃ type size rest, Leads tlvSize.toNat tlv type size rest := by
  induction hlen : tlv.length using Nat.strongRecOn generalizing tlv tlvSize with
  | _ n ih =>
      rcases parse_inv h with
        herr | ⟨type, size, rest, rfl, hroom, ⟨rfl, hentries⟩ | ⟨hdb, hmin, hmax, -⟩⟩
      · rw [herr] at hr
        exact absurd hr (by decide)
      · rw [parseEntries_eq (parse_ne_zero _ _)] at hentries
        split at hentries
        · next hpos =>
            have hwhole := wholeWords_toNat hn tlvSize.toNat_lt hroom
            rw [gt_iff_lt, UInt32.lt_iff_toNat_lt, hwhole] at hpos
            have hsize : 0 < size := UInt32.lt_iff_toNat_lt.mpr (wholeWords_pos.mp hpos)
            have hshort : rest.length < n := by
              rw [← hlen]
              simp only [List.length_cons]
              omega
            obtain ⟨type', size', rest', hlead⟩ :=
              ih _ hshort (by rw [hwhole]; exact wholeWords_mod _) hentries rfl
            rw [hwhole] at hlead
            exact ⟨_, _, _, .container hroom hsize hlead⟩
        · obtain ⟨herr, -⟩ := Prod.mk.inj (Option.some.inj hentries)
          rw [← herr] at hr
          exact absurd hr (by decide)
      · exact ⟨_, _, _, .db hroom hdb hmin hmax⟩

/-- The TLV that is found is among the words. -/
theorem Leads.suffix {n : ℕ} {type size : UInt32} {tlv rest : List UInt32}
    (h : Leads n tlv type size rest) : isDbType type = true ∧ type :: size :: rest <:+ tlv := by
  induction h with
  | db _ htype _ _ => exact ⟨htype, List.suffix_rfl⟩
  | container _ _ _ ih =>
      exact ⟨ih.1, ih.2.trans ((List.suffix_cons _ _).trans (List.suffix_cons _ _))⟩

end Pisces.Mixer
