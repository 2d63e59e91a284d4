import FPsPIN.Lib.PriorityEncoder

/-!
# Going round

The next set position after a given one, going up and beginning again at the
bottom. Whatever else is set, a set position is not passed over: each such
move brings it closer.
-/

namespace FPsPIN.RoundRobin

open PriorityEncoder

/-- The number of places from one position up to another, going round. -/
def distance (n r k : Nat) : Nat := if r ≤ k then k - r else k + n - r

theorem distance_lt {n r k : Nat} (hr : r < n) (hk : k < n) : distance n r k < n := by
  rw [distance]
  split <;> omega

/-- The next set position above the given one, or else the first one that is not above it. -/
structure IsNext (n : Nat) (bit : Nat → Bool) (r next : Nat) : Prop where
  lt : next < n
  set : bit next = true
  above : r < next → ∀ j, r < j → j < next → bit j = false
  round : next ≤ r → (∀ j, r < j → j < n → bit j = false) ∧ ∀ j < next, bit j = false

theorem IsNext.distance_lt {n r next k : Nat} {bit : Nat → Bool} (h : IsNext n bit r next) (hr : r < n)
    (hk : k < n) (hSet : bit k = true) (hNe : k ≠ r) : distance n next k < distance n r k := by
  have hLt := h.lt
  have hPassed : ∀ {j}, bit j = false → j ≠ k := by
    rintro j hClear rfl
    rw [hSet] at hClear
    cases hClear
  rcases Nat.lt_or_ge r next with hAbove | hRound
  · -- positions up to the next one are clear, so k is not among them
    have hClear : ¬ (r < k ∧ k < next) := fun hBetween => hPassed (h.above hAbove k hBetween.1 hBetween.2) rfl
    rw [distance, distance]
    split <;> split <;> omega
  · obtain ⟨hNone, hBefore⟩ := h.round hRound
    have hBelow : ¬ r < k := fun hrk => hPassed (hNone k hrk hk) rfl
    have hNext : ¬ k < next := fun hkn => hPassed (hBefore k hkn) rfl
    rw [distance, distance]
    split <;> split <;> omega

end FPsPIN.RoundRobin
