import Mathlib.Algebra.BigOperators.Group.List.Basic
import Mathlib.Algebra.GroupWithZero.Nat
import FPsPIN.Lib.Bytes

/-!
# Sums in ones' complement

The sum of 16 bit words with the carry added back in, as the headers of the
internet protocols are checked. It is the ordinary sum modulo 65535, except
that it tells the two zeros apart: it is 0 only for words that are all 0.
-/

namespace FPsPIN.OnesComplement

/-- Addition with end-around carry. -/
def add (a b : Nat) : Nat := (a + b) % 2 ^ 16 + (a + b) / 2 ^ 16

def sum (words : List (BitVec 16)) : Nat := words.foldl (fun acc word => add acc word.toNat) 0

def total (words : List (BitVec 16)) : Nat := (words.map BitVec.toNat).sum

@[simp] theorem total_cons (word : BitVec 16) (words : List (BitVec 16)) :
    total (word :: words) = word.toNat + total words := List.sum_cons

theorem total_append (words rest : List (BitVec 16)) : total (words ++ rest) = total words + total rest := by
  rw [total, List.map_append, List.sum_append]
  rfl

theorem toNat_le_total {word : BitVec 16} {words : List (BitVec 16)} (h : word ∈ words) :
    word.toNat ≤ total words := by
  obtain ⟨front, back, rfl⟩ := List.append_of_mem h
  rw [total_append, total_cons]
  omega

theorem total_replace {f g : Nat → BitVec 16} {n j : Nat} (hj : j < n) (hSame : ∀ k < n, k ≠ j → g k = f k) :
    total ((List.range n).map g) + (f j).toNat = total ((List.range n).map f) + (g j).toNat := by
  induction n with
  | zero => exact absurd hj (Nat.not_lt_zero j)
  | succ n ih =>
    simp only [List.range_succ, List.map_append, total_append, List.map_cons, List.map_nil, total_cons]
    rcases Nat.lt_succ_iff_lt_or_eq.mp hj with hLt | rfl
    · have hFront := ih hLt fun k hk hNe => hSame k (Nat.lt_succ_of_lt hk) hNe
      rw [hSame n (Nat.lt_succ_self n) (Nat.ne_of_gt hLt)]
      omega
    · have hFront : (List.range j).map g = (List.range j).map f :=
        List.map_congr_left fun k hk =>
          hSame k (Nat.lt_succ_of_lt (List.mem_range.mp hk)) (Nat.ne_of_lt (List.mem_range.mp hk))
      rw [hFront]
      omega

theorem foldl_add (words : List (BitVec 16)) {acc : Nat} (hAcc : acc ≤ 65535) :
    words.foldl (fun acc word => add acc word.toNat) acc ≤ 65535 ∧
      words.foldl (fun acc word => add acc word.toNat) acc % 65535 = (acc + total words) % 65535 ∧
      (words.foldl (fun acc word => add acc word.toNat) acc = 0 ↔ acc + total words = 0) := by
  induction words generalizing acc with
  | nil => exact ⟨hAcc, rfl, Iff.rfl⟩
  | cons word words ih =>
    have hWord : word.toNat < 65536 := word.isLt
    have hAdded : add acc word.toNat ≤ 65535 := by
      unfold add
      omega
    obtain ⟨hLe, hMod, hZero⟩ := ih hAdded
    rw [List.foldl_cons, total_cons]
    refine ⟨hLe, hMod.trans ?_, hZero.trans ?_⟩ <;> unfold add <;> omega

/-- The check of a header. -/
theorem sum_eq_max_iff (words : List (BitVec 16)) :
    sum words = 65535 ↔ total words ≠ 0 ∧ total words % 65535 = 0 := by
  obtain ⟨hLe, hMod, hZero⟩ := foldl_add words (Nat.zero_le 65535)
  unfold sum
  omega

/-- The carries of a sum added back in, once. -/
def fold (acc : Nat) : Nat := acc % 2 ^ 16 + acc / 2 ^ 16

/-- For a sum below 2 ^ 32 two folds leave no carry. -/
theorem fold_fold {acc : Nat} (hPos : 0 < acc) (hLt : acc < 2 ^ 32) :
    0 < fold (fold acc) ∧ fold (fold acc) ≤ 65535 ∧ fold (fold acc) % 65535 = acc % 65535 := by
  unfold fold
  omega

theorem total_le (words : List (BitVec 16)) : total words ≤ 65535 * words.length := by
  induction words with
  | nil => exact Nat.le_refl 0
  | cons word words ih =>
    have hWord : word.toNat < 65536 := word.isLt
    rw [total_cons, List.length_cons]
    omega

/-- Modulo 65535 the swap of the bytes of a word is multiplication by 256. -/
theorem total_map_bswap16 (words : List (BitVec 16)) :
    total (words.map Bytes.bswap16) % 65535 = 256 * total words % 65535 := by
  induction words with
  | nil => rfl
  | cons word words ih =>
    rw [List.map_cons, total_cons, total_cons, Bytes.toNat_bswap16]
    omega

end FPsPIN.OnesComplement
