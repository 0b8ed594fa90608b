import Mathlib.Data.Finmap
import Mathlib.Data.Finset.Sort
import Mathlib.Order.Basic

/-!
# Directories and the move of an entry

A directory is a finite map from names to nodes. Moving one entry from a
directory to another is what rename(2) does with a file in it: the entry
disappears from the one and appears in the other, taking the place of an entry
of that name if the two nodes permit it, and nothing happens if they do not.

Emptying a directory into another moves its entries one at a time, so an
invariant of that loop holds at every point where the loop may be cut. Two are
here. What the two directories hold together, the source read first, does not
change at all; and a move can only be refused on a name the two share.
-/

namespace Pisces.Lib

abbrev Dir (κ ν : Type) := Finmap fun _ : κ => ν

namespace Dir

variable {κ ν : Type}

section Names

variable [LinearOrder κ]

/-- The names in a directory, in order. -/
def names (d : Dir κ ν) : List κ :=
  Quot.liftOn d.keys.val (fun l => l.insertionSort (· ≤ ·)) fun _ _ h =>
    ((List.perm_insertionSort _ _).trans
      (h.trans (List.perm_insertionSort _ _).symm)).eq_of_pairwise'
      (List.pairwise_insertionSort _ _) (List.pairwise_insertionSort _ _)

theorem mem_names {d : Dir κ ν} {x : κ} : x ∈ d.names ↔ x ∈ d := by
  rw [← Finmap.mem_keys, Finset.mem_def]
  show x ∈ Quot.liftOn d.keys.val _ _ ↔ _
  generalize d.keys.val = l
  induction l using Quot.inductionOn with
  | h l => exact List.mem_insertionSort _

end Names

variable [DecidableEq κ] {d o src dst : Dir κ ν} {n x : κ} {v : ν}

theorem eq_empty_iff : d = ∅ ↔ ∀ x, x ∉ d := by
  constructor
  · rintro rfl x
    exact Finmap.notMem_empty
  · intro h
    refine Finmap.ext_lookup fun x => ?_
    rw [Finmap.lookup_empty, Finmap.lookup_eq_none]
    exact h x

theorem lookup_union (x : κ) : (src ∪ dst).lookup x = (src.lookup x).or (dst.lookup x) := by
  by_cases h : x ∈ src
  · rw [Finmap.lookup_union_left h]
    obtain ⟨v, hv⟩ := Finmap.mem_iff.mp h
    rw [hv, Option.some_or]
  · rw [Finmap.lookup_union_right h, Finmap.lookup_eq_none.mpr h, Option.none_or]

/-! ## One move -/

/-- Whether `src`'s entry `n` may go to `dst`: the name is free there, or the
node there is one that the new node may replace. -/
def admits (replaces : ν → ν → Bool) (v : ν) : Option ν → Bool
  | none => true
  | some old => replaces v old

def move (replaces : ν → ν → Bool) (n : κ) (src dst : Dir κ ν) : Dir κ ν × Dir κ ν :=
  match src.lookup n with
  | none => (src, dst)
  | some v =>
      if admits replaces v (dst.lookup n) then (src.erase n, dst.insert n v) else (src, dst)

variable {replaces : ν → ν → Bool}

/-- The move of `n` is refused: the name is taken, and not by a node that may
be replaced. -/
def Refused (replaces : ν → ν → Bool) (src dst : Dir κ ν) (n : κ) : Prop :=
  ∃ v old, src.lookup n = some v ∧ dst.lookup n = some old ∧ replaces v old = false

/-- A move takes the entry over, or changes nothing for one of two reasons. -/
theorem move_cases (replaces : ν → ν → Bool) (n : κ) (src dst : Dir κ ν) :
    (∃ v, src.lookup n = some v ∧ ¬ Refused replaces src dst n ∧
      move replaces n src dst = (src.erase n, dst.insert n v)) ∨
    ((n ∉ src ∨ Refused replaces src dst n) ∧ move replaces n src dst = (src, dst)) := by
  unfold move
  cases hv : src.lookup n with
  | none => exact .inr ⟨.inl (Finmap.lookup_eq_none.mp hv), rfl⟩
  | some v =>
      cases hold : dst.lookup n with
      | none =>
          refine .inl ⟨v, rfl, ?_, rfl⟩
          rintro ⟨_, old, -, hold', -⟩
          rw [hold] at hold'
          cases hold'
      | some old =>
          cases hr : replaces v old with
          | false => exact .inr ⟨.inr ⟨v, old, hv, hold, hr⟩, by simp only [admits, hr]; rfl⟩
          | true =>
              refine .inl ⟨v, rfl, ?_, by simp only [admits, hr]; rfl⟩
              rintro ⟨v', old', hv', hold', hno⟩
              rw [hv, Option.some.injEq] at hv'
              rw [hold, Option.some.injEq] at hold'
              rw [← hv', ← hold', hr] at hno
              cases hno

theorem mem_move_src (h : x ∈ (move replaces n src dst).1) :
    x ∈ src ∧ (x = n → Refused replaces src dst n) := by
  rcases move_cases replaces n src dst with ⟨v, -, -, hm⟩ | ⟨hor, hm⟩
  · rw [hm] at h
    obtain ⟨hne, hmem⟩ := Finmap.mem_erase.mp h
    exact ⟨hmem, fun hx => absurd hx hne⟩
  · rw [hm] at h
    refine ⟨h, ?_⟩
    rintro rfl
    exact hor.resolve_left (not_not_intro h)

/-- A move leaves the other names alone. -/
theorem mem_move_of_ne (hx : x ≠ n) : x ∈ (move replaces n src dst).1 ↔ x ∈ src := by
  rcases move_cases replaces n src dst with ⟨v, -, -, hm⟩ | ⟨-, hm⟩
  · rw [hm, Finmap.mem_erase]
    exact and_iff_right hx
  · rw [hm]

theorem mem_move_of_refused (h : Refused replaces src dst x) :
    x ∈ (move replaces n src dst).1 := by
  have hsrc : x ∈ src := by
    obtain ⟨v, -, hv, -, -⟩ := h
    exact Finmap.mem_of_lookup_eq_some hv
  rcases move_cases replaces n src dst with ⟨v, -, hn, hm⟩ | ⟨-, hm⟩
  · rw [hm]
    refine Finmap.mem_erase.mpr ⟨?_, hsrc⟩
    rintro rfl
    exact hn h
  · rw [hm]
    exact hsrc

/-- A name that is still in the source after a move has its nodes as before. -/
theorem move_stay (h : x ∈ (move replaces n src dst).1) :
    (move replaces n src dst).1.lookup x = src.lookup x ∧
    (move replaces n src dst).2.lookup x = dst.lookup x := by
  rcases move_cases replaces n src dst with ⟨v, -, -, hm⟩ | ⟨-, hm⟩
  · rw [hm] at h ⊢
    have hx := (Finmap.mem_erase.mp h).1
    exact ⟨Finmap.lookup_erase_ne hx, Finmap.lookup_insert_of_ne _ hx⟩
  · rw [hm]
    exact ⟨rfl, rfl⟩

/-- One that is not has its node, if it had one there, in the destination. -/
theorem move_gone (h : x ∉ (move replaces n src dst).1) :
    (move replaces n src dst).2.lookup x = (src.lookup x).or (dst.lookup x) := by
  rcases move_cases replaces n src dst with ⟨v, hv, -, hm⟩ | ⟨-, hm⟩
  · rw [hm] at h ⊢
    by_cases hx : x = n
    · subst hx
      rw [Finmap.lookup_insert, hv, Option.some_or]
    · have hsrc : x ∉ src := fun hmem => h (Finmap.mem_erase.mpr ⟨hx, hmem⟩)
      rw [Finmap.lookup_insert_of_ne _ hx, Finmap.lookup_eq_none.mpr hsrc, Option.none_or]
  · rw [hm] at h ⊢
    rw [Finmap.lookup_eq_none.mpr h, Option.none_or]

theorem lookup_move_src {v : ν} (h : (move replaces n src dst).1.lookup x = some v) :
    src.lookup x = some v := by
  have hx : x ∈ (move replaces n src dst).1 := Finmap.mem_of_lookup_eq_some h
  rw [← h, (move_stay hx).1]

theorem lookup_move_dst {v : ν} (h : (move replaces n src dst).2.lookup x = some v) :
    src.lookup x = some v ∨ dst.lookup x = some v := by
  by_cases hx : x ∈ (move replaces n src dst).1
  · rw [(move_stay hx).2] at h
    exact .inr h
  · rw [move_gone hx] at h
    rcases Option.or_eq_some_iff.mp h with hv | ⟨-, hv⟩
    · exact .inl hv
    · exact .inr hv

/-- A move loses no name and makes none. -/
theorem mem_move_either : x ∈ (move replaces n src dst).1 ∨ x ∈ (move replaces n src dst).2 ↔
    x ∈ src ∨ x ∈ dst := by
  by_cases hx : x ∈ (move replaces n src dst).1
  · simp only [hx, (mem_move_src hx).1, true_or]
  · have hgone := move_gone hx
    rw [← lookup_union] at hgone
    have hdst : x ∈ (move replaces n src dst).2 ↔ x ∈ src ∪ dst := by
      rw [← Finmap.lookup_isSome, hgone, Finmap.lookup_isSome]
    simp only [hx, false_or, hdst, Finmap.mem_union]

theorem mem_move_dst (h : x ∈ dst) : x ∈ (move replaces n src dst).2 := by
  rcases move_cases replaces n src dst with ⟨v, -, -, hm⟩ | ⟨-, hm⟩
  · rw [hm]
    exact Finmap.mem_insert.mpr (.inr h)
  · rw [hm]
    exact h

/-- After its move a name is in the destination. -/
theorem mem_move_done (h : n ∈ src) : n ∈ (move replaces n src dst).2 := by
  rcases move_cases replaces n src dst with ⟨v, -, -, hm⟩ | ⟨hor, hm⟩
  · rw [hm]
    exact Finmap.mem_insert.mpr (.inl rfl)
  · obtain ⟨-, old, -, hold, -⟩ := hor.resolve_left (not_not_intro h)
    rw [hm]
    exact Finmap.mem_of_lookup_eq_some hold

/-- A name that a move has not taken away is also in the destination. -/
theorem mem_move_both (h : n ∈ (move replaces n src dst).1) :
    n ∈ (move replaces n src dst).2 := by
  obtain ⟨v, old, -, hold, -⟩ := (mem_move_src h).2 rfl
  rw [← (move_stay h).2] at hold
  exact Finmap.mem_of_lookup_eq_some hold

/-! ## Emptying a directory -/

/-- Partway through emptying `src` into `dst`, with the names `rest` still to
come: an entry is where it was or it has been moved, and one that will not be
moved was refused. -/
structure Partway (replaces : ν → ν → Bool) (src dst : Dir κ ν) (rest : List κ)
    (src' dst' : Dir κ ν) : Prop where
  stay : ∀ x ∈ src', src'.lookup x = src.lookup x ∧ dst'.lookup x = dst.lookup x
  gone : ∀ x, x ∉ src' → dst'.lookup x = (src.lookup x).or (dst.lookup x)
  left : ∀ x ∈ src', x ∈ rest ∨ Refused replaces src dst x
  kept : ∀ x, Refused replaces src dst x → x ∈ src'

theorem Partway.init {rest : List κ} (hrest : ∀ x ∈ src, x ∈ rest) :
    Partway replaces src dst rest src dst where
  stay := fun _ _ => ⟨rfl, rfl⟩
  gone := fun x hx => by rw [Finmap.lookup_eq_none.mpr hx, Option.none_or]
  left := fun x hx => .inl (hrest x hx)
  kept := fun _ ⟨_, _, hv, _, _⟩ => Finmap.mem_of_lookup_eq_some hv

namespace Partway

variable {rest : List κ} {src' dst' : Dir κ ν}

theorem mem_src (h : Partway replaces src dst rest src' dst') (hx : x ∈ src') : x ∈ src := by
  rw [← Finmap.lookup_isSome] at hx ⊢
  rwa [← (h.stay x (Finmap.lookup_isSome.mp hx)).1]

theorem mem_dst (h : Partway replaces src dst rest src' dst') (hx : x ∈ src') :
    x ∈ dst' ↔ x ∈ dst := by
  rw [← Finmap.lookup_isSome, ← Finmap.lookup_isSome, (h.stay x hx).2]

theorem move (h : Partway replaces src dst (n :: rest) src' dst') :
    Partway replaces src dst rest (Dir.move replaces n src' dst').1
      (Dir.move replaces n src' dst').2 := by
  constructor
  · intro x hx
    obtain ⟨hs, hd⟩ := move_stay hx
    have hsrc := (mem_move_src hx).1
    rw [hs, hd]
    exact h.stay x hsrc
  · intro x hx
    rw [move_gone hx]
    by_cases hsrc : x ∈ src'
    · rw [(h.stay x hsrc).1, (h.stay x hsrc).2]
    · rw [h.gone x hsrc, Finmap.lookup_eq_none.mpr hsrc, Option.none_or]
  · intro x hx
    obtain ⟨hsrc, hn⟩ := mem_move_src hx
    rcases h.left x hsrc with hrest | hrefused
    · rcases List.mem_cons.mp hrest with rfl | hrest
      · obtain ⟨v, old, hv, hold, hno⟩ := hn rfl
        rw [(h.stay x hsrc).1] at hv
        rw [(h.stay x hsrc).2] at hold
        exact .inr ⟨v, old, hv, hold, hno⟩
      · exact .inl hrest
    · exact .inr hrefused
  · intro x hrefused
    have hsrc := h.kept x hrefused
    obtain ⟨v, old, hv, hold, hno⟩ := hrefused
    rw [← (h.stay x hsrc).1] at hv
    rw [← (h.stay x hsrc).2] at hold
    exact mem_move_of_refused ⟨v, old, hv, hold, hno⟩

/-- Seen with the source first, the two directories together never change. -/
theorem union (h : Partway replaces src dst rest src' dst') : src' ∪ dst' = src ∪ dst := by
  refine Finmap.ext_lookup fun x => ?_
  rw [lookup_union, lookup_union]
  by_cases hx : x ∈ src'
  · rw [(h.stay x hx).1, (h.stay x hx).2]
  · rw [h.gone x hx, Finmap.lookup_eq_none.mpr hx, Option.none_or]

/-- No name is new. -/
theorem mem_either (h : Partway replaces src dst rest src' dst') (hx : x ∈ dst') :
    x ∈ src ∨ x ∈ dst := by
  rw [← Finmap.mem_union, ← h.union]
  exact Finmap.mem_union.mpr (.inr hx)

/-- An entry whose name only one of the two had is in one of them with its
value. -/
theorem lookup_either (h : Partway replaces src dst rest src' dst') (hdisj : x ∈ src → x ∉ dst)
    {v : ν} (hv : src.lookup x = some v ∨ dst.lookup x = some v) :
    src'.lookup x = some v ∨ dst'.lookup x = some v := by
  have hunion : (src ∪ dst).lookup x = some v := by
    rw [lookup_union]
    rcases hv with hv | hv
    · rw [hv, Option.some_or]
    · have hsrc : x ∉ src := fun hx => hdisj hx (Finmap.mem_of_lookup_eq_some hv)
      rw [Finmap.lookup_eq_none.mpr hsrc, hv, Option.none_or]
  rw [← h.union, lookup_union] at hunion
  rcases Option.or_eq_some_iff.mp hunion with hv | ⟨-, hv⟩
  · exact .inl hv
  · exact .inr hv

/-- At the end, a name that stayed is in both. -/
theorem mem_of_done (h : Partway replaces src dst [] src' dst') (hx : x ∈ src') : x ∈ dst' := by
  rcases h.left x hx with hnil | ⟨v, old, -, hold, -⟩
  · cases hnil
  · exact (h.mem_dst hx).mpr (Finmap.mem_of_lookup_eq_some hold)

/-- With no name in both, everything goes over. -/
theorem done (h : Partway replaces src dst [] src' dst') (hdisj : ∀ x ∈ src, x ∉ dst) :
    src' = ∅ ∧ dst' = src ∪ dst := by
  have hempty : src' = ∅ := by
    rw [eq_empty_iff]
    intro x hx
    rcases h.left x hx with hnil | ⟨v, old, hv, hold, -⟩
    · cases hnil
    · exact hdisj x (Finmap.mem_of_lookup_eq_some hv) (Finmap.mem_of_lookup_eq_some hold)
  refine ⟨hempty, ?_⟩
  rw [← h.union, hempty, Finmap.empty_union]

/-- Nor do they with the destination first, if nothing can be replaced. -/
theorem union_dst (h : Partway replaces src dst rest src' dst')
    (hfree : ∀ x ∈ src, x ∈ dst → Refused replaces src dst x) : dst' ∪ src' = dst ∪ src := by
  refine Finmap.ext_lookup fun x => ?_
  rw [lookup_union, lookup_union]
  by_cases hx : x ∈ src'
  · rw [(h.stay x hx).1, (h.stay x hx).2]
  · rw [h.gone x hx, Finmap.lookup_eq_none.mpr hx, Option.or_none]
    by_cases hsrc : x ∈ src
    · have hdst : x ∉ dst := fun hmem => hx (h.kept x (hfree x hsrc hmem))
      rw [Finmap.lookup_eq_none.mpr hdst, Option.or_none, Option.none_or]
    · rw [Finmap.lookup_eq_none.mpr hsrc, Option.none_or, Option.or_none]

end Partway

end Dir

end Pisces.Lib
