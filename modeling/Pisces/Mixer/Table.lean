import Pisces.Mixer.Convert

/-!
# Ranges of linear TLVs

A range gives its gains piece by piece. Both functions walk over its entries until
one reaches the end of the raw volumes, and cut that one off there; for a TLV that
is given by its two ends this changes the line, for a scale it does not.

What the walk finds is the highest volume that is not too loud, over all the
entries that it gets to. The argument goes entry by entry: an entry that begins
above the gain asked for ends the search with the last volume before it, one that
ends below it is passed, and between the two its own conversion answers.
-/

namespace Pisces.Mixer

/-- The entries of a range in the `n` words that are left of its payload. The size
of an entry says where the next one begins. -/
inductive Table : ℕ → List UInt32 → List Entry → Prop
  | done {n : ℕ} {words : List UInt32} : n < 6 → Table n words []
  | entry {n : ℕ} {lo hi type size a b : UInt32} {more : List UInt32} {es : List Entry} :
      6 ≤ n →
      Table (n - ((intIndex size).toNat + 4))
        ((lo :: hi :: type :: size :: a :: b :: more).drop ((intIndex size).toNat + 4)) es →
      Table n (lo :: hi :: type :: size :: a :: b :: more) (⟨toInt lo, toInt hi, type, a, b⟩ :: es)

/-- An entry ends where the raw volumes do. -/
def Entry.clamp (rangemax : ℤ) (e : Entry) : Entry :=
  { e with hi := if rangemax < e.hi then rangemax else e.hi }

/-- The entries that a walk gets to. -/
def reached (rangemax : ℤ) : List Entry → List Entry
  | [] => []
  | e :: es =>
      if rangemax = (e.clamp rangemax).hi then [e.clamp rangemax]
      else e.clamp rangemax :: reached rangemax es

/-- Every entry rises and fits, and each begins above the ones before it. -/
structure Rising (es : List Entry) : Prop where
  good : ∀ e ∈ es, e.Good
  order : es.Pairwise fun e e' => e.hi < e'.lo ∧ e.high < e'.bottom

/-- The raw volumes with a gain of at most `db`. -/
def settings (es : List Entry) (db : ℤ) : Set ℤ :=
  { u | ∃ e ∈ es, e.lo ≤ u ∧ u ≤ e.hi ∧ e.gain u ≤ db }

section Settings

variable {e : Entry} {es : List Entry} {db v : ℤ}

theorem Rising.head (h : Rising (e :: es)) : e.Good := h.good e List.mem_cons_self

theorem Rising.tail (h : Rising (e :: es)) : Rising es where
  good e' he' := h.good e' (List.mem_cons_of_mem e he')
  order := h.order.of_cons

theorem Rising.after (h : Rising (e :: es)) {e' : Entry} (he' : e' ∈ es) :
    e.hi < e'.lo ∧ e.high < e'.bottom := List.rel_of_pairwise_cons h.order he'

/-- All the entries after one that ends at `db` or above begin above it. -/
theorem Rising.none_after (h : Rising (e :: es)) (hdb : db ≤ e.high) {u : ℤ} :
    u ∉ settings es db := by
  rintro ⟨e', he', hlo, hhi, hg⟩
  have hbottom := (h.tail.good e' he').bottom_le hlo hhi hg
  have hafter := (h.after he').2
  omega

/-- Nothing is quiet enough below the first entry. -/
theorem Rising.none_below (h : Rising (e :: es)) (hdb : db < e.bottom) {u : ℤ} :
    u ∉ settings (e :: es) db := by
  have hlevel := h.head.level
  have habove := h.head.above
  rintro ⟨e', he', hlo, hhi, hg⟩
  have hbottom := (h.good e' he').bottom_le hlo hhi hg
  rcases List.mem_cons.mp he' with rfl | he'
  · omega
  · have hafter := (h.after he').2
    omega

theorem Entry.Good.gain_raw (h : e.Good) (hdb : e.bottom ≤ db) : e.gain (e.raw db) ≤ db := by
  obtain ⟨hlo, hhi⟩ := @Entry.Good.raw_bounds e db h
  rcases Int.le_iff_lt_or_eq.mp hlo with hlo | heq
  · exact (h.gain_le_iff_raw hlo hhi).mpr (Int.le_refl _)
  · rw [← heq, Entry.gain_lo]
    exact_mod_cast hdb

/-- The entry's own conversion, if nothing after it is quiet enough. -/
theorem Rising.greatest_head (h : Rising (e :: es)) (hdb : e.bottom ≤ db)
    (hnone : ∀ u, u ∉ settings es db) : IsGreatest (settings (e :: es) db) (e.raw db) := by
  obtain ⟨hlo, hhi⟩ := @Entry.Good.raw_bounds e db h.head
  refine ⟨⟨e, List.mem_cons_self, hlo, hhi, h.head.gain_raw hdb⟩, ?_⟩
  rintro u ⟨e', he', hulo, huhi, hg⟩
  rcases List.mem_cons.mp he' with rfl | he'
  · rcases Int.le_iff_lt_or_eq.mp hulo with hulo | rfl
    · exact (h.head.gain_le_iff_raw hulo huhi).mp hg
    · exact hlo
  · exact absurd ⟨e', he', hulo, huhi, hg⟩ (hnone u)

/-- What is found further on is higher. -/
theorem Rising.greatest_tail (h : Rising (e :: es)) (hv : IsGreatest (settings es db) v) :
    IsGreatest (settings (e :: es) db) v := by
  obtain ⟨⟨e', he', hlo, hhi, hg⟩, hup⟩ := hv
  refine ⟨⟨e', List.mem_cons_of_mem e he', hlo, hhi, hg⟩, ?_⟩
  rintro u ⟨e'', he'', hulo, huhi, hug⟩
  rcases List.mem_cons.mp he'' with rfl | he''
  · have hafter := (h.after he').1
    omega
  · exact hup ⟨e'', he'', hulo, huhi, hug⟩

theorem Entry.Good.raw_of_high (h : e.Good) (hdb : e.high < db) : e.raw db = e.hi := by
  have hlevel := h.level
  rw [Entry.raw, if_neg (by omega), if_pos (by omega)]

end Settings

/-! ## The walk of the conversion -/

/-- What the walk gives that is at `pos` and has passed volumes up to `prev`. -/
def Found (pos : ℕ) (prev db v : ℤ) : List Entry → Prop
  | [] => v = prev
  | e :: es =>
      (db < e.bottom → v = if pos = 2 then e.lo else prev) ∧
        (e.bottom ≤ db → IsGreatest (settings (e :: es) db) v)

section Walk

variable {linear : (min max rangemin rangemax dbGain xdir : ℤ) → ℤ} {rangemax db : ℤ}

/-- An entry that ends below the gain asked for is passed. -/
theorem Found.passed {e : Entry} {es : List Entry} {pos pos' : ℕ} {prev v : ℤ}
    (h : Rising (e :: es)) (hdb : e.high < db) (hpos : pos' ≠ 2) (hv : Found pos' e.hi db v es) :
    Found pos prev db v (e :: es) := by
  have hlevel := h.head.level
  have habove := h.head.above
  refine ⟨fun hno => absurd hno (by omega), fun hbottom => ?_⟩
  rw [← h.head.raw_of_high hdb] at hv
  cases es with
  | nil =>
      rw [show v = _ from hv]
      refine h.greatest_head hbottom ?_
      rintro u ⟨e', he', -⟩
      cases he'
  | cons e' es =>
      obtain ⟨hbelow, hin⟩ := hv
      by_cases hdb' : db < e'.bottom
      · rw [hbelow hdb', if_neg hpos]
        exact h.greatest_head hbottom fun u => h.tail.none_below hdb'
      · exact h.greatest_tail (hin (by omega))

/-- One round of the walk at a good entry. -/
theorem fromDbLoop_entry {lo hi type size a b : UInt32} {more : List UInt32} {e : Entry}
    {pos len : ℕ} {prev : ℤ} {dbs : Option (ℤ × ℤ)}
    (he : Entry.clamp rangemax ⟨toInt lo, toInt hi, type, a, b⟩ = e) (hgood : e.Good)
    (hpos : pos + 4 ≤ len) :
    fromDbLoop linear (lo :: hi :: type :: size :: a :: b :: more) pos len rangemax db 0 prev dbs =
      if e.bottom ≤ db ∧ db ≤ e.high then .ok (0, some (e.raw db))
      else if db < e.bottom then .ok (0, some (if pos = 2 then e.lo else prev))
      else if rangemax = e.hi then .ok (0, some e.hi)
      else
        fromDbLoop linear
          ((lo :: hi :: type :: size :: a :: b :: more).drop ((intIndex size).toNat + 4))
          (pos + ((intIndex size).toNat + 4)) len rangemax db 0 e.hi (some (e.bottom, e.high)) := by
  have hlo : toInt lo = e.lo := by rw [← he]; rfl
  have hhi : (if rangemax < toInt hi then rangemax else toInt hi) = e.hi := by rw [← he]; rfl
  have htlv : type :: size :: a :: b :: more = e.type :: size :: e.a :: e.b :: more := by
    rw [← he]; rfl
  rw [fromDbLoop, if_pos hpos]
  simp only [hlo, hhi, htlv, hgood.getDbRange, hgood.convertFromDb, bind_ok, written, true_and,
    word_zero, word_succ, ge_iff_le, gt_iff_lt, Int.lt_irrefl, false_or]
  rfl

theorem fromDbLoop_found {len n : ℕ} {cur : List UInt32} {es : List Entry}
    (htable : Table n cur es) (hr : Rising (reached rangemax es)) :
    ∀ {pos : ℕ} {prev : ℤ} {dbs : Option (ℤ × ℤ)}, 2 ≤ pos → n = len + 2 - pos →
    ∃ v, fromDbLoop linear cur pos len rangemax db 0 prev dbs = .ok (0, some v) ∧
      Found pos prev db v (reached rangemax es) := by
  induction htable with
  | done hn =>
      intro pos prev dbs hpos hlen
      rw [fromDbLoop.eq_def, if_neg (by omega)]
      exact ⟨prev, rfl, rfl⟩
  | @entry n lo hi type size a b more es hn _ ih =>
      intro pos prev dbs hpos hlen
      generalize he : Entry.clamp rangemax ⟨toInt lo, toInt hi, type, a, b⟩ = e
      simp only [reached, he] at hr ⊢
      have hgood : e.Good := by
        split at hr <;> exact hr.head
      rw [fromDbLoop_entry he hgood (by omega)]
      generalize hes : (if rangemax = e.hi then [e] else e :: reached rangemax es) = es' at hr ⊢
      obtain ⟨rest, rfl⟩ : ∃ rest, es' = e :: rest := by
        split at hes <;> exact ⟨_, hes.symm⟩
      split
      · next hdb =>
          refine ⟨_, rfl, fun hno => absurd hno (by omega), fun hbottom => ?_⟩
          exact hr.greatest_head hbottom fun u => hr.none_after hdb.2
      · next hdb =>
          split
          · next hbelow => exact ⟨_, rfl, fun _ => rfl, fun hno => absurd hno (by omega)⟩
          · have hhigh : e.high < db := by omega
            split
            · next hend =>
                rw [if_pos hend, List.cons.injEq] at hes
                obtain ⟨-, rfl⟩ := hes
                have hlast : Found 0 e.hi db e.hi [] := rfl
                exact ⟨_, rfl, .passed hr hhigh (by decide) hlast⟩
            · next hend =>
                rw [if_neg hend, List.cons.injEq] at hes
                obtain ⟨-, rfl⟩ := hes
                obtain ⟨v, hv, hfound⟩ :=
                  ih hr.tail (show 2 ≤ pos + ((intIndex size).toNat + 4) by omega) (by omega)
                exact ⟨v, hv, .passed hr hhigh (by omega) hfound⟩

/-! ## The walk for the ends -/

/-- The gain at the end of the last entry, or `m` if there is none. -/
def lastHigh (m : ℤ) : List Entry → ℤ
  | [] => m
  | e :: es => lastHigh e.high es

/-- What one more entry leaves in `*min` and `*max`. -/
def merged (pos : ℕ) (out : ℤ × ℤ) (e : Entry) : ℤ × ℤ :=
  if 2 < pos then
    (if e.bottom < out.1 then e.bottom else out.1, if e.high > out.2 then e.high else out.2)
  else (e.bottom, e.high)

theorem getDbRangeLoop_entry {lo hi type size a b : UInt32} {more : List UInt32} {e : Entry}
    {pos len : ℕ} {out : Option (ℤ × ℤ)} {o : ℤ × ℤ}
    (he : Entry.clamp rangemax ⟨toInt lo, toInt hi, type, a, b⟩ = e) (hgood : e.Good)
    (hpos : pos + 4 ≤ len) (hout : 2 < pos → out = some o) :
    getDbRangeLoop (lo :: hi :: type :: size :: a :: b :: more) pos len rangemax out =
      if rangemax = e.hi then .ok (0, some (merged pos o e))
      else
        getDbRangeLoop
          ((lo :: hi :: type :: size :: a :: b :: more).drop ((intIndex size).toNat + 4))
          (pos + ((intIndex size).toNat + 4)) len rangemax (some (merged pos o e)) := by
  have hlo : toInt lo = e.lo := by rw [← he]; rfl
  have hhi : (if rangemax < toInt hi then rangemax else toInt hi) = e.hi := by rw [← he]; rfl
  have htlv : type :: size :: a :: b :: more = e.type :: size :: e.a :: e.b :: more := by
    rw [← he]; rfl
  rw [getDbRangeLoop, if_pos hpos]
  simp only [hlo, hhi, htlv, hgood.getDbRange, bind_ok, written, word_zero, word_succ, merged,
    Int.lt_irrefl, if_false]
  by_cases hlater : 2 < pos
  · simp only [hout hlater, if_pos hlater]
    rfl
  · simp only [if_neg hlater]
    rfl

theorem Entry.Good.bottom_le_high {e : Entry} (h : e.Good) : e.bottom ≤ e.high :=
  Int.le_trans h.above h.level

/-- An entry above the ones before it moves the upper end. -/
theorem merged_rising {e : Entry} {pos : ℕ} {m top : ℤ} (hpos : 2 < pos) (hm : m ≤ e.bottom)
    (htop : top ≤ e.high) : merged pos (m, top) e = (m, e.high) := by
  rw [merged, if_pos hpos, if_neg (by omega)]
  split
  · rfl
  · rw [show e.high = top by omega]

theorem getDbRangeLoop_ends {len n : ℕ} {cur : List UInt32} {es : List Entry}
    (htable : Table n cur es) (hr : Rising (reached rangemax es)) :
    ∀ {pos : ℕ} {m top : ℤ}, 2 < pos → n = len + 2 - pos →
    (∀ e ∈ reached rangemax es, m ≤ e.bottom ∧ top ≤ e.high) →
    getDbRangeLoop cur pos len rangemax (some (m, top)) =
      .ok (0, some (m, lastHigh top (reached rangemax es))) := by
  induction htable with
  | done hn =>
      intro pos m top hpos hlen _
      rw [getDbRangeLoop.eq_def, if_neg (by omega)]
      rfl
  | @entry n lo hi type size a b more es hn _ ih =>
      intro pos m top hpos hlen hbelow
      generalize he : Entry.clamp rangemax ⟨toInt lo, toInt hi, type, a, b⟩ = e
      simp only [reached, he] at hr hbelow ⊢
      have hgood : e.Good := by
        split at hr <;> exact hr.head
      obtain ⟨hm, htop⟩ : m ≤ e.bottom ∧ top ≤ e.high := by
        split at hbelow <;> exact hbelow e List.mem_cons_self
      rw [getDbRangeLoop_entry he hgood (by omega) fun _ => rfl, merged_rising hpos hm htop]
      split
      · rfl
      · next hend =>
          rw [if_neg hend] at hr
          refine ih hr.tail (by omega) (by omega) fun e' he' => ?_
          have hafter := (hr.after he').2
          have hlevel := (hr.tail.good e' he').bottom_le_high
          have hown := hgood.bottom_le_high
          omega

end Walk

/-! ## What a TLV says -/

/-- The entries of a TLV for the raw volumes from `rangemin` to `rangemax`. -/
inductive Describes (rangemin rangemax : ℤ) : List UInt32 → List Entry → Prop
  | line {type size a b : UInt32} {rest : List UInt32} :
      Describes rangemin rangemax (type :: size :: a :: b :: rest)
        [⟨rangemin, rangemax, type, a, b⟩]
  | range {size : UInt32} {words : List UInt32} {es : List Entry} :
      intIndex size ≤ maxTlvRangeSize → Table (intIndex size).toNat words es →
      Describes rangemin rangemax (sndCtlTlvtDbRange :: size :: words) (reached rangemax es)

section Results

variable {linear : (min max rangemin rangemax dbGain xdir : ℤ) → ℤ} {rangemin rangemax : ℤ}
  {tlv : List UInt32} {e : Entry} {es : List Entry}

/-- A range with an entry is long enough. -/
theorem Table.length_le {n : ℕ} {words : List UInt32} {es : List Entry} (h : Table n words es)
    (hne : es ≠ []) : 6 ≤ n := by
  cases h with
  | done _ => exact absurd rfl hne
  | entry hn _ => exact hn

theorem reached_eq_nil {es : List Entry} (h : reached rangemax es ≠ []) : es ≠ [] := by
  rintro rfl
  exact h rfl

theorem convert_isGreatest (h : Describes rangemin rangemax tlv (e :: es))
    (hr : Rising (e :: es)) (db : ℤ) :
    ∃ v, mixerTlvConvertFromDb linear tlv rangemin rangemax db = .ok (0, some v) ∧
      IsGreatest (insert e.lo (settings (e :: es) db)) v := by
  have hup : ∀ {u : ℤ}, u ∈ settings (e :: es) db → e.lo ≤ u := by
    rintro u ⟨e', he', hlo, -, -⟩
    have hrange := hr.head.range
    rcases List.mem_cons.mp he' with rfl | he'
    · exact hlo
    · have hafter := (hr.after he').1
      omega
  have hgreatest : ∀ {v : ℤ}, Found 2 0 db v (e :: es) →
      IsGreatest (insert e.lo (settings (e :: es) db)) v := by
    rintro v ⟨hbelow, hin⟩
    by_cases hdb : db < e.bottom
    · rw [hbelow hdb, if_pos rfl]
      refine ⟨Set.mem_insert _ _, ?_⟩
      rintro u (rfl | hu)
      · exact Int.le_refl _
      · exact absurd hu (hr.none_below hdb)
    · obtain ⟨hmem, hle⟩ := hin (by omega)
      refine ⟨Set.mem_insert_of_mem _ hmem, ?_⟩
      rintro u (rfl | hu)
      · exact hup hmem
      · exact hle hu
  rw [mixerTlvConvertFromDb]
  generalize hes : e :: es = all at h hgreatest
  cases h with
  | line =>
      obtain ⟨rfl, rfl⟩ := List.cons.inj hes
      refine ⟨_, hr.head.convertFromDb, hgreatest ⟨fun hbelow => ?_, fun hin => ?_⟩⟩
      · have habove := hr.head.above
        rw [if_pos rfl, Entry.raw, if_pos (by omega)]
      · refine hr.greatest_head hin ?_
        rintro u ⟨e', he', -⟩
        cases he'
  | @range size words es' hlen htable =>
      have hlong := htable.length_le (reached_eq_nil (by rw [← hes]; simp))
      rw [hes] at hr
      obtain ⟨v, hv, hfound⟩ : ∃ v, fromDbLoop linear words 2 (intIndex size).toNat rangemax db 0 0
          none = .ok (0, some v) ∧ Found 2 0 db v (reached rangemax es') :=
        fromDbLoop_found htable hr (Nat.le_refl 2) rfl
      refine ⟨v, ?_, hgreatest hfound⟩
      rw [sndTlvConvertFromDb, word_zero, bind_ok, if_pos rfl, word_succ, word_zero, bind_ok,
        if_neg ?_]
      · exact hv
      · rw [not_or, UInt32.not_lt, gt_iff_lt, UInt32.not_lt]
        exact ⟨UInt32.le_iff_toNat_le.mpr hlong, hlen⟩

/-- The value of a conversion is known by what it is the greatest of. -/
theorem convert_eq (h : Describes rangemin rangemax tlv (e :: es)) (hr : Rising (e :: es))
    {db v : ℤ}
    (hv : IsGreatest (insert e.lo (settings (e :: es) db)) v) :
    mixerTlvConvertFromDb linear tlv rangemin rangemax db = .ok (0, some v) := by
  obtain ⟨v', hv', hgreatest⟩ : ∃ v, mixerTlvConvertFromDb linear tlv rangemin rangemax db =
      .ok (0, some v) ∧ IsGreatest (insert e.lo (settings (e :: es) db)) v :=
    convert_isGreatest h hr db
  rw [hv', hgreatest.unique hv]

theorem getDbRange_isEnds (h : Describes rangemin rangemax tlv (e :: es)) (hr : Rising (e :: es)) :
    sndTlvGetDbRange tlv rangemin rangemax none =
      .ok (0, some (e.bottom, lastHigh e.high es)) := by
  generalize hes : e :: es = all at h
  cases h with
  | line =>
      obtain ⟨rfl, rfl⟩ := List.cons.inj hes
      exact hr.head.getDbRange none
  | @range size words es' hlen htable =>
      rw [sndTlvGetDbRange, word_zero, bind_ok, if_pos rfl, word_succ, word_zero, bind_ok,
        if_neg (UInt32.not_lt.mpr hlen)]
      show getDbRangeLoop words 2 (intIndex size).toNat rangemax none = _
      cases htable with
      | done _ => cases hes
      | @entry n lo hi type size' a b more es' hn hrest =>
          generalize he : Entry.clamp rangemax ⟨toInt lo, toInt hi, type, a, b⟩ = e' at hes
          rw [reached, he] at hes
          have hee : e = e' := by
            split at hes <;> exact (List.cons.inj hes).1
          subst hee
          have hmerged : merged 2 (0, 0) e = (e.bottom, e.high) := rfl
          rw [getDbRangeLoop_entry he hr.head (by omega) (fun hno => absurd hno (by decide)),
            hmerged]
          split
          · next hend =>
              rw [if_pos hend] at hes
              rw [(List.cons.inj hes).2]
              rfl
          · next hend =>
              rw [if_neg hend] at hes
              rw [(List.cons.inj hes).2] at hr ⊢
              refine getDbRangeLoop_ends hrest hr.tail (by omega) (by omega) fun e' he' => ?_
              have hafter := (hr.after he').2
              have hlevel := (hr.tail.good e' he').bottom_le_high
              have hown := hr.head.bottom_le_high
              omega

/-- Of two entries one is wholly above the other. -/
theorem Rising.compare {es : List Entry} (hr : Rising es) {e e' : Entry} (he : e ∈ es)
    (he' : e' ∈ es) :
    e = e' ∨ (e.hi < e'.lo ∧ e.high < e'.bottom) ∨ (e'.hi < e.lo ∧ e'.high < e.bottom) := by
  induction es with
  | nil => cases he
  | cons first es ih =>
      rcases List.mem_cons.mp he with rfl | hes <;> rcases List.mem_cons.mp he' with rfl | hes'
      · exact .inl rfl
      · exact .inr (.inl (hr.after hes'))
      · exact .inr (.inr (hr.after hes))
      · exact ih hr.tail hes hes'

/-- The last entry ends highest. -/
theorem Rising.last (hr : Rising (e :: es)) : ∃ last ∈ e :: es, lastHigh e.high es = last.high ∧
    ∀ e' ∈ e :: es, e'.hi ≤ last.hi ∧ e'.high ≤ last.high := by
  induction es generalizing e with
  | nil =>
      refine ⟨e, List.mem_cons_self, rfl, fun e' he' => ?_⟩
      rw [List.mem_singleton.mp he']
      exact ⟨Int.le_refl _, Int.le_refl _⟩
  | cons e₁ es ih =>
      obtain ⟨last, hmem, hhigh, hall⟩ := ih hr.tail
      refine ⟨last, List.mem_cons_of_mem e hmem, hhigh, fun e' he' => ?_⟩
      rcases List.mem_cons.mp he' with rfl | he'
      · have hafter := hr.after hmem
        have hgood := hr.tail.good last hmem
        have hrange := hgood.range
        have hlevel := hgood.bottom_le_high
        omega
      · exact hall e' he'

/-- No volume but the lowest has a gain that is not above the first. -/
theorem Entry.Good.gain_bottom (h : e.Good) {db u : ℤ} (hdb : db ≤ e.bottom) (hlo : e.lo < u)
    (hhi : u ≤ e.hi) : ¬ e.gain u ≤ db := by
  have habove := h.above
  rw [h.gain_le_iff_raw hlo hhi, Entry.raw, if_pos (by omega)]
  omega

/-- The gains of an entry are not above its last. -/
theorem Entry.Good.gain_le_high (h : e.Good) {db u : ℤ} (hlo : e.lo ≤ u) (hhi : u ≤ e.hi)
    (hg : (db : ℚ) ≤ e.gain u) : db ≤ e.high := by
  have hlevel := h.bottom_le_high
  rcases Int.le_iff_lt_or_eq.mp hlo with hlo | rfl
  · have hle : e.gain u ≤ (e.high : ℤ) := by
      rw [h.gain_le_iff_raw hlo hhi, Entry.raw]
      have hrises := h.rises (by omega)
      rw [if_neg (by omega), if_pos (Int.le_refl _)]
      exact hhi
    exact_mod_cast hg.trans hle
  · rw [Entry.gain_lo] at hg
    have hbottom : db ≤ e.bottom := by exact_mod_cast hg
    omega

/-- Higher volumes of an entry have higher gains. -/
theorem Entry.Good.gain_strict (h : e.Good) {db u u' : ℤ} (hlo : e.lo ≤ u) (huu : u < u')
    (hhi : u' ≤ e.hi) (hg : e.gain u = db) : ¬ e.gain u' ≤ db := by
  have hrises := h.rises (by omega)
  rcases Int.le_iff_lt_or_eq.mp hlo with hlo | rfl
  · have hsteeper : (u - e.lo) * (e.high - e.low) < (u' - e.lo) * (e.high - e.low) :=
      Int.mul_lt_mul_of_pos_right (by omega) (by omega)
    rw [Entry.gain_eq_iff hlo (by omega)] at hg
    rw [Entry.gain_le_iff (by omega) hhi]
    omega
  · rw [Entry.gain_lo] at hg
    have hbottom : e.bottom = db := by exact_mod_cast hg
    exact h.gain_bottom (by omega) huu hhi

/-- For every TLV whose entries rise and fit, a line or a range of them: every conversion
succeeds, its value is the highest raw volume with a gain that is not above the one
asked for, or the lowest volume if there is none, and asking for more never gives
less. -/
theorem convert_gives_loudest (h : Describes rangemin rangemax tlv (e :: es))
    (hr : Rising (e :: es)) :
    (∀ db, ∃ v, mixerTlvConvertFromDb linear tlv rangemin rangemax db = .ok (0, some v) ∧
      IsGreatest (insert e.lo (settings (e :: es) db)) v) ∧
    ∀ db db' v v', db ≤ db' →
      mixerTlvConvertFromDb linear tlv rangemin rangemax db = .ok (0, some v) →
      mixerTlvConvertFromDb linear tlv rangemin rangemax db' = .ok (0, some v') → v ≤ v' := by
  refine ⟨convert_isGreatest h hr, fun db db' v v' hle hv hv' => ?_⟩
  obtain ⟨u, hu, hgreatest⟩ : ∃ v, mixerTlvConvertFromDb linear tlv rangemin rangemax db =
      .ok (0, some v) ∧ IsGreatest (insert e.lo (settings (e :: es) db)) v :=
    convert_isGreatest h hr db
  obtain ⟨u', hu', hgreatest'⟩ : ∃ v, mixerTlvConvertFromDb linear tlv rangemin rangemax db' =
      .ok (0, some v) ∧ IsGreatest (insert e.lo (settings (e :: es) db')) v :=
    convert_isGreatest h hr db'
  rw [hv] at hu
  rw [hv'] at hu'
  cases hu
  cases hu'
  refine hgreatest.mono hgreatest' (Set.insert_subset_insert ?_)
  rintro w ⟨e', he', hlo, hhi, hg⟩
  refine ⟨e', he', hlo, hhi, hg.trans ?_⟩
  exact_mod_cast hle

/-- For every such TLV: the gain of a raw volume, if it is a whole number, is
converted back to that volume; and the two gains that `snd_tlv_get_dB_range` gives
are those of the ends, at and beyond which the conversion gives the lowest and the
highest volume. -/
theorem convert_inverts_gain (h : Describes rangemin rangemax tlv (e :: es))
    (hr : Rising (e :: es)) :
    (∀ e' ∈ e :: es, ∀ u db : ℤ, e'.lo ≤ u → u ≤ e'.hi → e'.gain u = db →
      mixerTlvConvertFromDb linear tlv rangemin rangemax db = .ok (0, some u)) ∧
    ∃ last ∈ e :: es, (∀ e' ∈ e :: es, e'.hi ≤ last.hi) ∧
      sndTlvGetDbRange tlv rangemin rangemax none = .ok (0, some (e.bottom, last.high)) ∧
      (∀ db ≤ e.bottom,
        mixerTlvConvertFromDb linear tlv rangemin rangemax db = .ok (0, some e.lo)) ∧
      ∀ db ≥ last.high,
        mixerTlvConvertFromDb linear tlv rangemin rangemax db = .ok (0, some last.hi) := by
  have hlow : ∀ e' ∈ e :: es, e.lo ≤ e'.lo := by
    intro e' he'
    have hrange := hr.head.range
    rcases List.mem_cons.mp he' with rfl | he'
    · exact Int.le_refl _
    · have hafter := (hr.after he').1
      omega
  refine ⟨fun e' he' u db hlo hhi hg => convert_eq h hr ⟨?_, ?_⟩, ?_⟩
  · exact Set.mem_insert_of_mem _ ⟨e', he', hlo, hhi, le_of_eq hg⟩
  · rintro u' (rfl | ⟨e'', he'', hlo', hhi', hg'⟩)
    · exact Int.le_trans (hlow e' he') hlo
    · by_contra hno
      rcases hr.compare he' he'' with rfl | ⟨-, hbelow⟩ | ⟨habove, -⟩
      · exact (hr.good e' he').gain_strict hlo (by omega) hhi' hg hg'
      · have hhigh := (hr.good e' he').gain_le_high hlo hhi (ge_of_eq hg)
        have hbottom := (hr.good e'' he'').bottom_le hlo' hhi' hg'
        omega
      · omega
  · obtain ⟨last, hmem, hhigh, hall⟩ := hr.last
    refine ⟨last, hmem, fun e' he' => (hall e' he').1, ?_, fun db hdb => convert_eq h hr ⟨?_, ?_⟩,
      fun db hdb => convert_eq h hr ⟨?_, ?_⟩⟩
    · rw [← hhigh]
      exact getDbRange_isEnds h hr
    · exact Set.mem_insert _ _
    · rintro u (rfl | ⟨e', he', hlo, hhi, hg⟩)
      · exact Int.le_refl _
      · have hbottom := (hr.good e' he').bottom_le hlo hhi hg
        rcases List.mem_cons.mp he' with rfl | he'
        · by_contra hno
          exact hr.head.gain_bottom hdb (by omega) hhi hg
        · have hafter := (hr.after he').2
          have hown := hr.head.bottom_le_high
          omega
    · have hgood := hr.good last hmem
      exact Set.mem_insert_of_mem _ ⟨last, hmem, hgood.range, Int.le_refl _, hgood.gain_hi hdb⟩
    · have hgood := hr.good last hmem
      rintro u (rfl | ⟨e', he', hlo, hhi, hg⟩)
      · exact Int.le_trans (hlow last hmem) hgood.range
      · exact Int.le_trans hhi (hall e' he').1

end Results

/-! ## A range of two scales -/

/-- Volumes 0 to 10 from -50 dB in steps of 1 dB, of which 0 is silent, and 11 to 20
from -39 dB in steps of 2 dB. -/
def twoScales : List UInt32 :=
  [3, 48, 0, 10, 1, 8, 4294962296, 0x10064, 11, 20, 1, 8, 4294963396, 200]

def firstScale : Entry := ⟨0, 10, 1, 4294962296, 0x10064⟩
def secondScale : Entry := ⟨11, 20, 1, 4294963396, 200⟩

theorem twoScales_describes : Describes 0 20 twoScales [firstScale, secondScale] := by
  have hlast : Table 0 [] [] := .done (by decide)
  have hsecond : Table 6 (twoScales.drop 8) [secondScale] := .entry (by decide) hlast
  have hfirst : Table (intIndex 48).toNat (twoScales.drop 2) [firstScale, secondScale] :=
    .entry (by decide) hsecond
  have hsize : intIndex 48 ≤ maxTlvRangeSize := by decide
  exact Describes.range hsize hfirst

theorem twoScales_rising : Rising [firstScale, secondScale] where
  good e he := by
    rcases List.mem_cons.mp he with rfl | he
    · exact ⟨⟨by decide, by decide, by decide, by decide, by decide⟩,
        by decide, by decide, by decide, by decide⟩
    · rw [List.mem_singleton.mp he]
      exact ⟨⟨by decide, by decide, by decide, by decide, by decide⟩,
        by decide, by decide, by decide, by decide⟩
  order := by
    simp only [List.pairwise_cons, List.mem_singleton, forall_eq, List.not_mem_nil]
    exact ⟨by decide, nofun, .nil⟩

/-- Between -40 dB, the end of the first scale, and -39 dB, the start of the second. -/
theorem convert_gives_loudest_between :
    ∃ v, mixerTlvConvertFromDb (fun _ _ _ _ _ _ => 0) twoScales 0 20 (-3950) = .ok (0, some v) ∧
      IsGreatest (insert 0 (settings [firstScale, secondScale] (-3950))) v :=
  (convert_gives_loudest twoScales_describes twoScales_rising).1 (-3950)

theorem convert_inverts_gain_second :
    mixerTlvConvertFromDb (fun _ _ _ _ _ _ => 0) twoScales 0 20 (-3500) = .ok (0, some 13) := by
  have hgain : secondScale.gain 13 = (-3500 : ℤ) :=
    (Entry.gain_eq_iff (by decide) (by decide)).mpr (by decide)
  exact (convert_inverts_gain twoScales_describes twoScales_rising).1 secondScale
    (by simp) 13 (-3500) (by decide) (by decide) hgain

end Pisces.Mixer
