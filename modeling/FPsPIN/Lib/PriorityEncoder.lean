import Mathlib.Data.List.Basic
import Mathlib.Order.WellFounded

/-!
# The lowest set position of a bit vector

A vector of n bits is a predicate on the indices below n. The encoder
returns the least index whose bit is set, when there is one.
-/

namespace FPsPIN.PriorityEncoder

def lowest (n : Nat) (bit : Nat → Bool) : Option Nat := (List.range n).find? bit

theorem lowest_eq_some {n k : Nat} {bit : Nat → Bool} :
    lowest n bit = some k ↔ k < n ∧ bit k = true ∧ ∀ j < k, bit j = false := by
  rw [lowest, List.find?_range_eq_some]
  constructor
  · rintro ⟨hk, hmem, hlt⟩
    exact ⟨by simpa using hmem, hk, fun j hj => by simpa using hlt j hj⟩
  · rintro ⟨hlt, hk, hj⟩
    exact ⟨hk, by simpa using hlt, fun j hjk => by simpa using hj j hjk⟩

theorem lowest_eq_none {n : Nat} {bit : Nat → Bool} :
    lowest n bit = none ↔ ∀ j < n, bit j = false := by
  rw [lowest, List.find?_range_eq_none]
  simp

theorem exists_lowest {n k : Nat} {bit : Nat → Bool} (hk : k < n) (hbit : bit k = true) :
    ∃ j, lowest n bit = some j := by
  cases h : lowest n bit with
  | some j => exact ⟨j, rfl⟩
  | none =>
    have hClear := lowest_eq_none.mp h k hk
    rw [hbit] at hClear
    cases hClear

section First

variable {ι : Type*} [Preorder ι]

def IsFirst (bit : ι → Bool) (i : ι) : Prop := bit i = true ∧ ∀ j < i, bit j = false

variable {bit bit' : ι → Bool}

theorem IsFirst.of_alike [WellFoundedLT ι]
    (hAlike : ∀ i, (∀ j < i, bit j = false ∧ bit' j = false) → bit i = bit' i)
    {i : ι} (h : IsFirst bit i) : IsFirst bit' i := by
  have hBefore : ∀ j, j < i → bit' j = false := by
    intro j
    induction j using WellFoundedLT.induction with
    | ind j ih =>
      intro hj
      rw [← hAlike j fun k hk => ⟨h.2 k (hk.trans hj), ih k hk (hk.trans hj)⟩]
      exact h.2 j hj
  refine ⟨?_, hBefore⟩
  rw [← hAlike i fun j hj => ⟨h.2 j hj, hBefore j hj⟩]
  exact h.1

/-- Two vectors have the same first index exactly if the first one set in either is set in both. -/
theorem isFirst_iff_alike [WellFoundedLT ι] :
    (∀ i, IsFirst bit i ↔ IsFirst bit' i) ↔
      ∀ i, (∀ j < i, bit j = false ∧ bit' j = false) → bit i = bit' i := by
  constructor
  · intro hFirst i hBefore
    rw [Bool.eq_iff_iff]
    constructor
    · intro hBit
      exact ((hFirst i).mp ⟨hBit, fun j hj => (hBefore j hj).1⟩).1
    · intro hBit
      exact ((hFirst i).mpr ⟨hBit, fun j hj => (hBefore j hj).2⟩).1
  · intro hAlike i
    constructor
    · exact IsFirst.of_alike hAlike
    · exact IsFirst.of_alike fun j hj => (hAlike j fun k hk => (hj k hk).symm).symm

end First

end FPsPIN.PriorityEncoder
