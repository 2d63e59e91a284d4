import Mathlib.Data.List.Perm.Basic

/-!
# Ranges of positions and the bitmap that marks them

A bitmap marks a list of ranges when exactly the positions they cover are
set. If the ranges are apart, taking one out clears its positions and no
others. Ranges that form a chain, each beginning where the one before ends,
are apart.
-/

namespace FPsPIN.Ranges

structure Range where
  start : Nat
  length : Nat
deriving DecidableEq

def Range.Covers (r : Range) (i : Nat) : Prop := r.start ≤ i ∧ i < r.start + r.length

instance (r : Range) (i : Nat) : Decidable (r.Covers i) := inferInstanceAs (Decidable (_ ∧ _))

def Apart (r r' : Range) : Prop := ∀ i, r.Covers i → ¬ r'.Covers i

theorem Apart.symm {r r' : Range} (h : Apart r r') : Apart r' r := fun i hr' hr => h i hr hr'

def Marks (bit : Nat → Bool) (ranges : List Range) : Prop := ∀ i, bit i = true ↔ ∃ r ∈ ranges, r.Covers i

variable {bit : Nat → Bool} {ranges ranges' : List Range} {r : Range}

theorem Marks.perm (h : Marks bit ranges) (hPerm : ranges.Perm ranges') : Marks bit ranges' := by
  intro i
  rw [h i]
  exact exists_congr (fun r => and_congr_left (fun _ => hPerm.mem_iff))

theorem Marks.covered (h : Marks bit ranges) (hr : r ∈ ranges) {i : Nat} (hi : r.Covers i) : bit i = true :=
  (h i).mpr ⟨r, hr, hi⟩

theorem pairwise_perm (h : ranges.Pairwise Apart) (hPerm : ranges.Perm ranges') : ranges'.Pairwise Apart :=
  (hPerm.pairwise_iff (fun hApart => hApart.symm)).mp h

theorem apart_of_mem_erase (h : ranges.Pairwise Apart) (hr : r ∈ ranges) {r' : Range}
    (hr' : r' ∈ ranges.erase r) :
    Apart r r' :=
  (List.pairwise_cons.mp (pairwise_perm h (List.perm_cons_erase hr))).1 r' hr'

theorem Marks.erase (h : Marks bit ranges) (hApart : ranges.Pairwise Apart) (hr : r ∈ ranges) :
    Marks (fun i => bit i && !decide (r.Covers i)) (ranges.erase r) := by
  intro i
  rw [Bool.and_eq_true, Bool.not_eq_true', decide_eq_false_iff_not, h i]
  constructor
  · rintro ⟨⟨r', hr', hCovers⟩, hNot⟩
    have hNe : r' ≠ r := fun hEq => hNot (hEq ▸ hCovers)
    exact ⟨r', (List.mem_erase_of_ne hNe).mpr hr', hCovers⟩
  · rintro ⟨r', hr', hCovers⟩
    exact ⟨⟨r', List.mem_of_mem_erase hr', hCovers⟩, fun hi => apart_of_mem_erase hApart hr hr' i hi hCovers⟩

theorem Marks.append (h : Marks bit ranges) (r : Range) :
    Marks (fun i => bit i || decide (r.Covers i)) (ranges ++ [r]) := by
  intro i
  rw [Bool.or_eq_true, decide_eq_true_iff, h i]
  simp [or_and_right, exists_or]

/-- A range of clear positions is apart from all that are marked. -/
theorem Marks.pairwise_append (h : Marks bit ranges) (hApart : ranges.Pairwise Apart)
    (hClear : ∀ i, r.Covers i → bit i = false) : (ranges ++ [r]).Pairwise Apart := by
  refine List.pairwise_append.mpr ⟨hApart, List.pairwise_singleton _ _, fun r' hr' x hx => ?_⟩
  rw [List.mem_singleton.mp hx]
  intro i hi hCovers
  exact absurd ((h.covered hr' hi).symm.trans (hClear i hCovers)) (by decide)

section Chains

/-- Ranges that are not empty and lie one behind the other, from one position to another. -/
def Chain : Nat → List Range → Nat → Prop
  | a, [], b => a = b
  | a, r :: rs, b => r.start = a ∧ 0 < r.length ∧ Chain (a + r.length) rs b

variable {a b : Nat} {rs : List Range}

theorem Chain.le (h : Chain a rs b) : a ≤ b := by
  induction rs generalizing a with
  | nil => exact Nat.le_of_eq h
  | cons r rs ih =>
    have hRest := ih h.2.2
    omega

theorem Chain.lt (h : Chain a rs b) (hSome : rs ≠ []) : a < b := by
  cases rs with
  | nil => exact absurd rfl hSome
  | cons r rs =>
    have hPos := h.2.1
    have hRest := h.2.2.le
    omega

theorem Chain.bounds (h : Chain a rs b) :
    ∀ r ∈ rs, a ≤ r.start ∧ 0 < r.length ∧ r.start + r.length ≤ b := by
  induction rs generalizing a with
  | nil => exact fun _ hMem => nomatch hMem
  | cons r rs ih =>
    obtain ⟨hStart, hPos, hRest⟩ := h
    intro r' hMem
    rcases List.mem_cons.mp hMem with rfl | hMem
    · have hLe := hRest.le
      omega
    · have hBounds := ih hRest r' hMem
      omega

theorem Chain.snoc (h : Chain a rs b) {n : Nat} (hn : 0 < n) : Chain a (rs ++ [⟨b, n⟩]) (b + n) := by
  induction rs generalizing a with
  | nil => exact ⟨(Eq.symm h), hn, congrArg (· + n) h⟩
  | cons r rs ih => exact ⟨h.1, h.2.1, ih h.2.2⟩

theorem apart_of_le {r r' : Range} (h : r.start + r.length ≤ r'.start) : Apart r r' := by
  rintro i ⟨-, hEnd⟩ ⟨hStart, -⟩
  omega

theorem Chain.pairwise (h : Chain a rs b) : rs.Pairwise Apart := by
  induction rs generalizing a with
  | nil => exact List.Pairwise.nil
  | cons r rs ih =>
    obtain ⟨hStart, -, hRest⟩ := h
    refine List.pairwise_cons.mpr ⟨fun r' hMem => apart_of_le ?_, ih hRest⟩
    have hBounds := hRest.bounds r' hMem
    omega

/-- Ranges that are apart and not empty start at different positions. -/
theorem nodup_start {ranges : List Range} (hApart : ranges.Pairwise Apart) (hPos : ∀ r ∈ ranges, 0 < r.length) :
    (ranges.map Range.start).Nodup := by
  refine List.pairwise_map.mpr (hApart.imp_of_mem fun {r r'} hr hr' hNot hSame => ?_)
  have hFirst := hPos r hr
  have hSecond := hPos r' hr'
  exact hNot r.start ⟨Nat.le_refl _, by omega⟩ ⟨by omega, by omega⟩

/-- If positions are different, the range that starts at one of them is the only one that leaves. -/
theorem perm_filter_start {ranges : List Range} {r : Range} (h : (ranges.map Range.start).Nodup)
    (hMem : r ∈ ranges) : ranges.Perm (r :: ranges.filter fun r' => r'.start != r.start) := by
  induction ranges with
  | nil => exact nomatch hMem
  | cons r' ranges ih =>
    obtain ⟨hNot, hRest⟩ := List.nodup_cons.mp h
    rcases List.mem_cons.mp hMem with rfl | hMem
    · have hAll : ∀ r' ∈ ranges, (r'.start != r.start) = true := fun r' hr' =>
        bne_iff_ne.mpr fun hSame => hNot (hSame ▸ List.mem_map_of_mem hr')
      rw [List.filter_cons, if_neg (by simp), List.filter_eq_self.mpr hAll]
    · have hKept : (r'.start != r.start) = true :=
        bne_iff_ne.mpr fun hSame => hNot (hSame ▸ List.mem_map_of_mem hMem)
      rw [List.filter_cons, if_pos hKept]
      exact ((ih hRest hMem).cons r').trans (List.Perm.swap r r' _)

end Chains

end FPsPIN.Ranges
