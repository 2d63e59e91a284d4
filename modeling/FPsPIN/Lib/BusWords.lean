import Mathlib.Data.List.Range

/-!
# Byte ranges on a bus of several lanes

A range of bytes that need not be aligned touches a number of words of a bus.
The words are given by their addresses, and a range that is cut at a word
boundary has the words of both parts.
-/

namespace FPsPIN.BusWords

variable {width a n : Nat}

def words (width a n : Nat) : Nat := (a % width + n + width - 1) / width

theorem words_eq (hWidth : 0 < width) (hn : 0 < n) : words width a n = (n + a % width - 1) / width + 1 := by
  have hSum : a % width + n + width - 1 = n + a % width - 1 + width := by omega
  rw [words, hSum, Nat.add_div_right _ hWidth]

theorem words_le {bound : Nat} (hWidth : 0 < width) (hn : 0 < n) (h : a % width + n ≤ bound * width) :
    words width a n ≤ bound := by
  rw [words_eq hWidth hn]
  exact Nat.div_lt_of_lt_mul (by rw [Nat.mul_comm]; omega)

def wordAddrs (width a n : Nat) : List Nat := (List.range (words width a n)).map fun k => (a / width + k) * width

/-- A range may be cut at a word boundary. -/
theorem wordAddrs_append {m : Nat} (hWidth : 0 < width) (hm : m ≤ n) (hCut : (a + m) % width = 0) :
    wordAddrs width a n = wordAddrs width a m ++ wordAddrs width (a + m) (n - m) := by
  obtain ⟨y, hy⟩ : ∃ y, a % width + m = width * y := by
    refine Nat.dvd_of_mod_eq_zero ?_
    rwa [Nat.mod_add_mod]
  have hFirst : words width a m = y := by
    rw [words, hy, Nat.add_sub_assoc hWidth, Nat.mul_add_div hWidth, Nat.div_eq_of_lt (Nat.sub_lt hWidth Nat.one_pos),
      Nat.add_zero]
  have hAll : words width a n = y + words width (a + m) (n - m) := by
    have hSum : a % width + n + width - 1 = width * y + (n - m + width - 1) := by omega
    rw [words, words, hCut, hSum, Nat.mul_add_div hWidth, Nat.zero_add]
  have hNext : (a + m) / width = a / width + y := by
    have hSum : a + m = width * (a / width + y) := by
      rw [Nat.mul_add, ← hy, ← Nat.add_assoc, Nat.div_add_mod]
    rw [hSum, Nat.mul_div_cancel_left _ hWidth]
  rw [wordAddrs, wordAddrs, wordAddrs, hFirst, hAll, hNext, List.range_add, List.map_append, List.map_map]
  refine congrArg (_ ++ ·) (List.map_congr_left fun k _ => ?_)
  rw [Function.comp_apply, Nat.add_assoc]

end FPsPIN.BusWords
