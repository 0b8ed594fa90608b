import Pisces.Mixer.Tlv

/-!
# Opening the mixer

`mixer_open` asks for the TLV of every INTEGER element and keeps a copy of the dB
TLV in it. An element for which the driver has no TLV keeps a null pointer, which
`mixer_ctl_convert_from_db` expects; but a TLV without dB information ends the
whole function, since the parser has no other result for it than an error. And a
TLV with a short container makes it read past the words that the driver gave.

What the driver and the allocator do is given with the card. The rest of the
function, before the loop and for enumerated elements, can fail too, and then it
is not a TLV that did it.
-/

namespace Pisces.Mixer

/-- What `SNDRV_CTL_IOCTL_TLV_READ` put into the buffer of 254 words. -/
abbrev Words := { words : List UInt32 // words.length ≤ 254 }

/-- `254 * sizeof(int)`, which the call leaves in `tlvbuffer->length`. -/
def tlvLength : UInt32 := 254 * 4

inductive Kind where
  /-- `SNDRV_CTL_ELEM_TYPE_ENUMERATED`, and whether its names can be read. -/
  | enumerated (names : Bool)
  /-- `SNDRV_CTL_ELEM_TYPE_INTEGER`, with what the TLV call gives if it succeeds and
  whether malloc does. -/
  | integer (tlv : Option Words) (malloc : Bool)
  | other

/-- A control element, and whether `SNDRV_CTL_IOCTL_ELEM_INFO` succeeds for it. -/
structure Element where
  info : Bool
  kind : Kind

/-- `ready` says that everything before the loop succeeds. -/
structure Card where
  ready : Bool
  elements : List Element

/-- Why the function goes to `fail`. -/
inductive Why where
  | tlv
  | other
  deriving DecidableEq

/-- `stray` is a read beyond the words of a TLV. -/
inductive Opened (α : Type) where
  | stray
  | fail (why : Why)
  | done (a : α)
  deriving DecidableEq

def Opened.bind {α β : Type} : Opened α → (α → Opened β) → Opened β
  | stray, _ => stray
  | fail why, _ => fail why
  | done a, f => f a

/-- The bytes of a word, the low one first. -/
def wordBytes (w : UInt32) : List UInt8 :=
  [w.toUInt8, (w >>> 8).toUInt8, (w >>> 16).toUInt8, (w >>> 24).toUInt8]

/-- `memcpy(.., tlv, n)` -/
def copyBytes (tlv : List UInt32) (n : ℕ) : Opened (List UInt8) :=
  if n ≤ 4 * tlv.length then .done ((tlv.flatMap wordBytes).take n) else .stray

/-- What is done with a TLV that has been read, to the new `ctl[n].tlv`. -/
def storeTlv (words : List UInt32) (malloc : Bool) : Opened (Option (List UInt8)) :=
  match mixerTlvParseDbInfo words tlvLength with
  | none => .stray
  | some (parsedSize, parsedTlv) =>
      if parsedSize < 0 then .fail .tlv
      else if !malloc then .fail .other
      else
        match parsedTlv with
        | none => .stray
        | some tlv => (copyBytes tlv parsedSize.toNat).bind fun b => .done (some b)

/-- One round of the loop: the element's `ctl[n].tlv`, null unless something is
stored there. -/
def openElement (e : Element) : Opened (Option (List UInt8)) :=
  if !e.info then .fail .other
  else
    match e.kind with
    | .enumerated names => if names then .done none else .fail .other
    | .integer none _ => .done none
    | .integer (some words) malloc => storeTlv words.val malloc
    | .other => .done none

def openElements : List Element → Opened (List (Option (List UInt8)))
  | [] => .done []
  | e :: es =>
      (openElement e).bind fun tlv => (openElements es).bind fun tlvs => .done (tlv :: tlvs)

/-- `mixer_open`: the `tlv` of every element, if it does not return null. -/
def mixerOpen (card : Card) : Opened (List (Option (List UInt8))) :=
  if !card.ready then .fail .other else openElements card.elements

/-! ## What is asked of it -/

/-- The bytes are those of a dB TLV, header and payload, that the words contain. -/
def CopyOfDbTlv (words : List UInt32) (b : List UInt8) : Prop :=
  ∃ type size rest, isDbType type = true ∧ type :: size :: rest <:+ words ∧
    size.toNat ≤ 4 * rest.length ∧
    b = ((type :: size :: rest).flatMap wordBytes).take (size.toNat + 8)

/-- What is stored for an element is such a copy from its own TLV. -/
def TlvRight (e : Element) (stored : Option (List UInt8)) : Prop :=
  ∀ b, stored = some b →
    ∃ words malloc, e.kind = .integer (some words) malloc ∧ CopyOfDbTlv words.val b

/-- No TLV makes the function fail or read where there is nothing, and what is
stored is right. -/
def Safe (elements : List Element) : Opened (List (Option (List UInt8))) → Prop
  | .stray => False
  | .fail .tlv => False
  | .fail .other => True
  | .done tlvs => List.Forall₂ TlvRight elements tlvs

/-! ## When it is so -/

/-- The TLV that is read for the element, if one is, leads to a dB TLV, which lies
within the words if it is copied. -/
def Element.TlvLeads (e : Element) : Prop :=
  e.info = true → ∀ words malloc, e.kind = .integer (some words) malloc →
    ∃ type size rest, Leads tlvLength.toNat words.val type size rest ∧
      (malloc = true → size.toNat ≤ 4 * rest.length)

/-- Nothing but its TLV can stop the loop at the element. -/
def Element.works (e : Element) : Bool :=
  e.info && match e.kind with
    | .enumerated names => names
    | .integer (some _) malloc => malloc
    | .integer none _ | .other => true

/-- The TLVs of all elements that the loop gets to. -/
def TlvsLead : List Element → Prop
  | [] => True
  | e :: es => e.TlvLeads ∧ (e.works = true → TlvsLead es)

section

variable {words rest : List UInt32} {type size : UInt32}

/-- A TLV that leads to a dB TLV. -/
theorem storeTlv_of_leads (h : Leads tlvLength.toNat words type size rest) :
    storeTlv words false = .fail .other ∧
    (size.toNat ≤ 4 * rest.length → storeTlv words true =
      .done (some (((type :: size :: rest).flatMap wordBytes).take (size.toNat + 8)))) ∧
    (¬ size.toNat ≤ 4 * rest.length → storeTlv words true = .stray) := by
  have hparse := h.parse rfl (by decide)
  have hpos : ¬ ((size.toNat + 8 : ℕ) : ℤ) < 0 := by omega
  have hlen : size.toNat + 8 ≤ 4 * (type :: size :: rest).length ↔
      size.toNat ≤ 4 * rest.length := by
    simp only [List.length_cons]
    omega
  unfold storeTlv
  simp only [hparse, if_neg hpos, Int.toNat_natCast, copyBytes]
  refine ⟨rfl, fun hin => ?_, fun hout => ?_⟩
  · rw [if_pos (hlen.mpr hin)]
    rfl
  · rw [if_neg fun hin => hout (hlen.mp hin)]
    rfl

/-- Any other is an error or leads out of the words. -/
theorem storeTlv_of_not_leads
    (h : ¬ ∃ type size rest, Leads tlvLength.toNat words type size rest) (malloc : Bool) :
    storeTlv words malloc = .stray ∨ storeTlv words malloc = .fail .tlv := by
  unfold storeTlv
  cases hparse : mixerTlvParseDbInfo words tlvLength with
  | none => exact .inl rfl
  | some p =>
      obtain ⟨r, db⟩ := p
      have hneg : r < 0 := by
        by_contra hr
        exact h (leads_of_parse (by decide) hparse (by omega))
      exact .inr (if_pos hneg)

end

theorem tlvLeads_of_none {e : Element}
    (h : e.info = false ∨ ∀ words malloc, e.kind ≠ .integer (some words) malloc) : e.TlvLeads := by
  intro hinfo words malloc hkind
  rcases h with h | h
  · rw [hinfo] at h
    cases h
  · exact absurd hkind (h words malloc)

theorem tlvRight_none (e : Element) : TlvRight e none := fun _ h => by cases h

/-- The three ways in which a round of the loop can go. -/
inductive Round (e : Element) : Prop
  | stored {tlv : Option (List UInt8)} : e.TlvLeads → e.works = true →
      openElement e = .done tlv → TlvRight e tlv → Round e
  | failed : e.TlvLeads → e.works = false → openElement e = .fail .other → Round e
  | broken : ¬ e.TlvLeads → openElement e = .stray ∨ openElement e = .fail .tlv → Round e

section

variable {words : Words}

theorem tlvLeads_integer {malloc : Bool} :
    Element.TlvLeads ⟨true, .integer (some words) malloc⟩ ↔
      ∃ type size rest, Leads tlvLength.toNat words.val type size rest ∧
        (malloc = true → size.toNat ≤ 4 * rest.length) := by
  simp [Element.TlvLeads]

/-- A TLV that leads to a dB TLV leads to no other. -/
theorem tlvLeads_of_leads {type size : UInt32} {rest : List UInt32} {malloc : Bool}
    (hlead : Leads tlvLength.toNat words.val type size rest) :
    Element.TlvLeads ⟨true, .integer (some words) malloc⟩ ↔
      (malloc = true → size.toNat ≤ 4 * rest.length) := by
  rw [tlvLeads_integer]
  constructor
  · intro h
    obtain ⟨type', size', rest', hlead', hin⟩ := h
    obtain ⟨-, rfl, rfl⟩ := hlead.unique hlead' (by decide)
    exact hin
  · intro hin
    exact ⟨type, size, rest, hlead, hin⟩

/-- The round of an INTEGER element whose TLV could be read. -/
theorem round_integer (words : Words) (malloc : Bool) :
    Round ⟨true, .integer (some words) malloc⟩ := by
  by_cases hlead : ∃ type size rest, Leads tlvLength.toNat words.val type size rest
  · obtain ⟨type, size, rest, hlead⟩ := hlead
    obtain ⟨hfail, hin, hout⟩ := storeTlv_of_leads hlead
    have hiff := @tlvLeads_of_leads words type size rest malloc hlead
    cases malloc with
    | false => exact .failed (hiff.mpr fun hno => by cases hno) rfl hfail
    | true =>
        by_cases hsize : size.toNat ≤ 4 * rest.length
        · obtain ⟨hdb, hsuffix⟩ := hlead.suffix
          refine .stored (hiff.mpr fun _ => hsize) rfl (hin hsize) fun b hb => ?_
          refine ⟨words, true, rfl, type, size, rest, hdb, hsuffix, hsize, ?_⟩
          exact (Option.some.inj hb).symm
        · exact .broken (fun h => hsize (hiff.mp h rfl)) (.inl (hout hsize))
  · refine .broken ?_ (storeTlv_of_not_leads hlead malloc)
    rw [tlvLeads_integer]
    intro h
    obtain ⟨type, size, rest, h, -⟩ := h
    exact hlead ⟨type, size, rest, h⟩

end

theorem openElement_round (e : Element) : Round e := by
  obtain ⟨info, kind⟩ := e
  cases info with
  | false => exact .failed (tlvLeads_of_none (.inl rfl)) rfl rfl
  | true =>
      cases kind with
      | enumerated names =>
          have hleads : Element.TlvLeads ⟨true, .enumerated names⟩ :=
            tlvLeads_of_none (.inr (by simp))
          cases names with
          | false => exact .failed hleads rfl rfl
          | true => exact .stored hleads rfl rfl (tlvRight_none _)
      | other => exact .stored (tlvLeads_of_none (.inr (by simp))) rfl rfl (tlvRight_none _)
      | integer tlv malloc =>
          cases tlv with
          | none => exact .stored (tlvLeads_of_none (.inr (by simp))) rfl rfl (tlvRight_none _)
          | some words => exact round_integer words malloc

/-- The loop: a TLV that does not lead to a dB TLV ends it the wrong way. -/
theorem openElements_safe_iff (es : List Element) : Safe es (openElements es) ↔ TlvsLead es := by
  induction es with
  | nil => simp [openElements, Safe, TlvsLead]
  | cons e es ih =>
      rw [openElements, TlvsLead]
      cases openElement_round e with
      | stored hleads hworks hopen hright =>
          rw [hopen, ← ih]
          simp only [hleads, hworks, true_and, true_implies]
          cases openElements es with
          | stray => rfl
          | fail why => cases why <;> rfl
          | done tlvs => simp [Opened.bind, Safe, hright]
      | failed hleads hworks hopen =>
          rw [hopen]
          simp [Opened.bind, Safe, hleads, hworks]
      | broken hleads hopen =>
          rcases hopen with hopen | hopen <;> rw [hopen] <;> simp [Opened.bind, Safe, hleads]

/-- A card opens as it should exactly if every TLV that the loop gets to leads to a
dB TLV, which lies within the words. -/
theorem mixerOpen_safe_iff (card : Card) :
    Safe card.elements (mixerOpen card) ↔ (card.ready = true → TlvsLead card.elements) := by
  unfold mixerOpen
  cases card.ready with
  | false => simp [Safe]
  | true => simp [openElements_safe_iff]

/-! ## TLVs that it does not bear -/

/-- One INTEGER element, and nothing else that could go wrong. -/
def oneElement (words : Words) : Card :=
  { ready := true, elements := [{ info := true, kind := .integer (some words) true }] }

/-- A channel map: a container with one entry of type 0x101. -/
def channelMap : Words := ⟨[0, 16, 0x101, 8, 3, 4], by decide⟩

/-- A container of one word, and in it the header of a dB scale of 256 bytes. -/
def shortContainer : Words := ⟨[0, 4, 1, 256], by decide⟩

/-- The one makes `mixer_open` fail, and the other makes it copy what is behind the
words. -/
theorem tlv_breaks_open :
    mixerOpen (oneElement channelMap) = .fail .tlv ∧
    mixerOpen (oneElement shortContainer) = .stray ∧
    ¬ ∀ card : Card, Safe card.elements (mixerOpen card) := by
  have hmap : mixerTlvParseDbInfo channelMap.val tlvLength = some (-einval, none) := by
    rw [channelMap, mixerTlvParseDbInfo, parseEntries_eq (parse_ne_zero _ _), mixerTlvParseDbInfo]
    decide
  have hshort : Leads tlvLength.toNat shortContainer.val 1 256 [] :=
    .container (by decide) (by decide) (.db (by decide) (by decide) (by decide) (by decide))
  have hfail : mixerOpen (oneElement channelMap) = .fail .tlv := by
    show (storeTlv channelMap.val true).bind _ = .fail .tlv
    rw [storeTlv, hmap]
    rfl
  have hstray : mixerOpen (oneElement shortContainer) = .stray := by
    show (storeTlv shortContainer.val true).bind _ = .stray
    rw [(storeTlv_of_leads hshort).2.2 (by decide)]
    rfl
  refine ⟨hfail, hstray, fun hall => ?_⟩
  have hsafe := hall (oneElement channelMap)
  rw [hfail] at hsafe
  exact hsafe

end Pisces.Mixer
