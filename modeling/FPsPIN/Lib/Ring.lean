import Mathlib.Tactic.SplitIfs

/-!
# Positions on a ring

On a ring of n positions every position has an offset from the head: the
number of steps that lead to it. Moving the head forward, but not beyond the
position, shortens the offset by as much.
-/

namespace FPsPIN.Ring

/-- Steps from the head to a position. -/
def offset (n head i : Nat) : Nat := if head ≤ i then i - head else i + n - head

/-- The position reached from the head in k steps. -/
def forward (n head k : Nat) : Nat := (head + k) % n

variable {n head i k : Nat}

theorem forward_lt (hHead : head < n) : forward n head k < n := Nat.mod_lt _ (Nat.zero_lt_of_lt hHead)

theorem forward_eq (hHead : head < n) (hk : k ≤ n) :
    forward n head k = if head + k < n then head + k else head + k - n := by
  rw [forward]
  split_ifs with hLt
  · exact Nat.mod_eq_of_lt hLt
  · rw [Nat.mod_eq_sub_mod (Nat.le_of_not_lt hLt), Nat.mod_eq_of_lt (by omega)]

theorem offset_lt (hHead : head < n) (hi : i < n) : offset n head i < n := by
  rw [offset]
  split_ifs <;> omega

@[simp] theorem offset_self : offset n head head = 0 := by
  rw [offset, if_pos (Nat.le_refl head), Nat.sub_self]

theorem forward_offset (hHead : head < n) (hi : i < n) : forward n head (offset n head i) = i := by
  rw [forward_eq hHead (Nat.le_of_lt (offset_lt hHead hi)), offset]
  split_ifs <;> omega

theorem offset_forward (hHead : head < n) (hk : k < n) : offset n head (forward n head k) = k := by
  rw [forward_eq hHead (Nat.le_of_lt hk), offset]
  split_ifs <;> omega

theorem forward_forward (k' : Nat) : forward n (forward n head k) k' = forward n head (k + k') := by
  rw [forward, forward, forward, Nat.mod_add_mod, Nat.add_assoc]

theorem offset_forward_head (hHead : head < n) (hi : i < n) (hk : k ≤ offset n head i) :
    offset n (forward n head k) i = offset n head i - k := by
  have hLt := offset_lt hHead hi
  have hPos : i = forward n (forward n head k) (offset n head i - k) := by
    rw [forward_forward, Nat.add_sub_cancel' hk, forward_offset hHead hi]
  exact (congrArg _ hPos).trans (offset_forward (forward_lt hHead) (by omega))

theorem forward_turn (hHead : head < n) : forward n head n = head := by
  rw [forward, Nat.add_mod_right, Nat.mod_eq_of_lt hHead]

theorem offset_old_head (hHead : head < n) (hPos : 0 < k) (hk : k < n) :
    offset n (forward n head k) head = n - k := by
  have hTurn : head = forward n (forward n head k) (n - k) := by
    rw [forward_forward, Nat.add_sub_cancel' (Nat.le_of_lt hk), forward_turn hHead]
  exact (congrArg _ hTurn).trans (offset_forward (forward_lt hHead) (by omega))

/-- Positions between the head and the tail stay so when the head moves forward, but not past them, and the tail by
no more than the room there is, unless head and tail meet. -/
theorem between_step {tail grown : Nat} (hHead : head < n) (hTail : tail < n) (hi : i < n)
    (hRoom : offset n head tail + grown ≤ n) (hk : k ≤ offset n head tail) (hki : k ≤ offset n head i)
    (hBetween : offset n head i < offset n head tail + grown) (hApart : forward n head k ≠ forward n tail grown) :
    offset n (forward n head k) i < offset n (forward n head k) (forward n tail grown) := by
  have hTail' : forward n tail grown = forward n head (offset n head tail + grown) := by
    rw [← forward_forward, forward_offset hHead hTail]
  have hTailLt := offset_lt hHead hTail
  rw [offset_forward_head hHead hi hki]
  rcases Nat.lt_or_eq_of_le hRoom with hLt | hEq
  · have hOffset : offset n head (forward n tail grown) = offset n head tail + grown := by
      rw [hTail', offset_forward hHead hLt]
    rw [offset_forward_head hHead (forward_lt hTail) (by omega), hOffset]
    omega
  · rw [hTail', hEq, forward_turn hHead] at hApart ⊢
    have hPos : 0 < k := by
      refine Nat.pos_of_ne_zero (fun hZero => hApart ?_)
      rw [hZero, forward, Nat.add_zero, Nat.mod_eq_of_lt hHead]
    rw [offset_old_head hHead hPos (by omega)]
    omega

end FPsPIN.Ring
