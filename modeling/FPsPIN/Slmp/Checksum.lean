import FPsPIN.Lib.OnesComplement
import FPsPIN.Slmp.Handlers

/-!
# The checksum of a header

Function ip_checksum adds words in network order to an accumulator that begins
at 65535, and subtracts 65535 as soon as there is a carry. The accumulator is
the sum of the words modulo 65535, and of the two numbers that stand for zero
it never takes the 0. So its complement is 0 exactly for words whose sum is a
multiple of 65535, and a string that carries its own checksum is such a one.
-/

namespace FPsPIN.Slmp

open FPsPIN.Bytes FPsPIN.OnesComplement

section Loop

theorem toNat_addWord {acc : BitVec 32} (hAcc : acc.toNat ≤ 65535) (word : BitVec 16) :
    (addWord acc word).toNat = if 65535 < acc.toNat + (bswap16 word).toNat then
      acc.toNat + (bswap16 word).toNat - 65535 else acc.toNat + (bswap16 word).toNat := by
  have hWord : (bswap16 word).toNat < 65536 := (bswap16 word).isLt
  have hSum : (acc + (bswap16 word).setWidth 32).toNat = acc.toNat + (bswap16 word).toNat := by
    rw [BitVec.toNat_add, BitVec.toNat_setWidth]
    omega
  simp only [addWord, GT.gt, BitVec.lt_def, hSum]
  change (if 65535 < acc.toNat + (bswap16 word).toNat then _ else _ : BitVec 32).toNat = _
  split
  · rw [BitVec.toNat_sub, hSum]
    change (4294967296 - 65535 + _) % 4294967296 = _
    omega
  · exact hSum

theorem foldl_addWord (words : List (BitVec 16)) {acc : BitVec 32} (hPos : 0 < acc.toNat)
    (hAcc : acc.toNat ≤ 65535) :
    0 < (words.foldl addWord acc).toNat ∧ (words.foldl addWord acc).toNat ≤ 65535 ∧
      (words.foldl addWord acc).toNat % 65535 = (acc.toNat + total (words.map bswap16)) % 65535 := by
  induction words generalizing acc with
  | nil => exact ⟨hPos, hAcc, rfl⟩
  | cons word words ih =>
    have hWord : (bswap16 word).toNat < 65536 := (bswap16 word).isLt
    have hNext := toNat_addWord hAcc word
    have hAdded : 0 < (addWord acc word).toNat ∧ (addWord acc word).toNat ≤ 65535 := by
      split at hNext <;> omega
    obtain ⟨hLow, hHigh, hMod⟩ := ih hAdded.1 hAdded.2
    rw [List.foldl_cons, List.map_cons, total_cons]
    refine ⟨hLow, hHigh, hMod.trans ?_⟩
    split at hNext <;> omega

theorem foldl_addWord_seed (words : List (BitVec 16)) :
    0 < (words.foldl addWord 0xffff).toNat ∧ (words.foldl addWord 0xffff).toNat ≤ 65535 ∧
      (words.foldl addWord 0xffff).toNat % 65535 = total (words.map bswap16) % 65535 := by
  have hSeed : 0 < (0xffff : BitVec 32).toNat ∧ (0xffff : BitVec 32).toNat ≤ 65535 := by decide
  obtain ⟨hPos, hLe, hMod⟩ := foldl_addWord words hSeed.1 hSeed.2
  refine ⟨hPos, hLe, hMod.trans ?_⟩
  exact Nat.add_mod_left 65535 _

theorem toNat_not_setWidth {acc : BitVec 32} (h : acc.toNat ≤ 65535) :
    ((~~~ acc).setWidth 16).toNat = 65535 - acc.toNat := by
  rw [BitVec.toNat_setWidth, BitVec.toNat_not]
  omega

end Loop

section EvenLength

variable {m m' : Memory} {a n j : Nat}

def accumulator (m : Memory) (a passes : Nat) : BitVec 32 :=
  ((List.range passes).map fun k => loadLE 2 m (a + 2 * k)).foldl addWord 0xffff

def netWords (m : Memory) (a n : Nat) : List (BitVec 16) := (List.range n).map fun k => loadBE 2 m (a + 2 * k)

theorem accumulator_spec (m : Memory) (a n : Nat) :
    0 < (accumulator m a n).toNat ∧ (accumulator m a n).toNat ≤ 65535 ∧
      (accumulator m a n).toNat % 65535 = total (netWords m a n) % 65535 := by
  have hWords : ((List.range n).map fun k => loadLE 2 m (a + 2 * k)).map bswap16 = netWords m a n := by
    simp [netWords, bswap16_loadLE]
  rw [← hWords]
  exact foldl_addWord_seed _

theorem ipChecksum_even (m : Memory) (a n : Nat) :
    ipChecksum m a (2 * n) = bswap16 ((~~~ accumulator m a n).setWidth 16) := by
  have hEven : 2 * n % 2 ≠ 1 := by omega
  have hHalf : 2 * n / 2 = n := by omega
  rw [ipChecksum, hHalf, if_neg hEven, List.append_nil]
  rfl

theorem toNat_bswap16_ipChecksum (m : Memory) (a n : Nat) :
    (bswap16 (ipChecksum m a (2 * n))).toNat = 65535 - (accumulator m a n).toNat := by
  rw [ipChecksum_even, bswap16_bswap16, toNat_not_setWidth (accumulator_spec m a n).2.1]

theorem ipChecksum_eq_zero_iff : ipChecksum m a (2 * n) = 0 ↔ total (netWords m a n) % 65535 = 0 := by
  obtain ⟨hPos, hLe, hMod⟩ := accumulator_spec m a n
  have hValue := toNat_bswap16_ipChecksum m a n
  constructor
  · intro hZero
    rw [hZero] at hValue
    change 0 = _ at hValue
    omega
  · intro hTotal
    have hSwapped : bswap16 (ipChecksum m a (2 * n)) = 0 := by
      apply BitVec.eq_of_toNat_eq
      rw [hValue]
      change _ = 0
      omega
    have hTwice := congrArg bswap16 hSwapped
    rw [bswap16_bswap16] at hTwice
    exact hTwice

theorem total_completed (hj : j < n) (hSame : ∀ k < n, k ≠ j → loadBE 2 m' (a + 2 * k) = loadBE 2 m (a + 2 * k))
    (hCleared : loadBE 2 m (a + 2 * j) = 0)
    (hStored : loadBE 2 m' (a + 2 * j) = bswap16 (ipChecksum m a (2 * n))) :
    total (netWords m' a n) % 65535 = 0 := by
  obtain ⟨hPos, hLe, hMod⟩ := accumulator_spec m a n
  have hReplace := total_replace hj hSame
  rw [hCleared, hStored, toNat_bswap16_ipChecksum] at hReplace
  change total (netWords m' a n) + 0 = total (netWords m a n) + _ at hReplace
  omega

theorem loadBE_place_other {v : BitVec 16} {k : Nat} (hNe : k ≠ j) :
    loadBE 2 (place m (a + 2 * j) (bytesLE 2 v)) (a + 2 * k) = loadBE 2 m (a + 2 * k) := by
  apply loadBE_congr
  intro i hi
  apply place_of_outside
  rw [length_bytesLE]
  omega

theorem loadBE_place_self (m : Memory) (b : Nat) (v : BitVec 16) :
    loadBE 2 (place m b (bytesLE 2 v)) b = bswap16 v := by
  apply Holds.loadBE
  rw [bswap16_bswap16]
  exact holds_place m b _

end EvenLength

/-- A string of even length that carries, at an even offset, its checksum with these two bytes cleared has
the checksum 0. In no pass of the loop does the accumulator exceed 65535 or become 0. -/
theorem ipChecksum_self_verifies (m : Memory) (a : Nat) {length offset : Nat} (hLength : length % 2 = 0)
    (hOffset : offset % 2 = 0) (hInside : offset < length) :
    ipChecksum (place m (a + offset)
        (bytesLE 2 (ipChecksum (place m (a + offset) (bytesLE 2 0)) a length))) a length = 0 ∧
      ∀ passes ≤ length / 2, accumulator m a passes ≤ 0xffff ∧ accumulator m a passes ≠ 0 := by
  obtain ⟨n, rfl⟩ : ∃ n, length = 2 * n := ⟨length / 2, by omega⟩
  obtain ⟨j, rfl⟩ : ∃ j, offset = 2 * j := ⟨offset / 2, by omega⟩
  have hj : j < n := by omega
  constructor
  · rw [ipChecksum_eq_zero_iff]
    apply total_completed (m := place m (a + 2 * j) (bytesLE 2 0)) hj
    · intro k _ hNe
      rw [loadBE_place_other hNe, loadBE_place_other hNe]
    · rw [loadBE_place_self]
      rfl
    · exact loadBE_place_self m _ _
  · intro passes _
    obtain ⟨hPos, hLe, -⟩ := accumulator_spec m a passes
    constructor
    · exact BitVec.le_def.mpr hLe
    · intro hZero
      rw [hZero] at hPos
      exact absurd hPos (by decide)

def fourBytes : Memory := fun k => [0x12, 0x34, 0xaa, 0xbb].getD (k - 14) 0

theorem ipChecksum_self_verifies_fourBytes :
    ipChecksum (place fourBytes (14 + 2) (bytesLE 2 0)) 14 4 = 0xcbed ∧
      ipChecksum (place fourBytes (14 + 2)
          (bytesLE 2 (ipChecksum (place fourBytes (14 + 2) (bytesLE 2 0)) 14 4))) 14 4 = 0 ∧
      ∀ passes ≤ 4 / 2, accumulator fourBytes 14 passes ≤ 0xffff ∧ accumulator fourBytes 14 passes ≠ 0 := by
  have hVerifies := ipChecksum_self_verifies fourBytes 14 (by decide : 4 % 2 = 0) (by decide : 2 % 2 = 0)
    (by decide)
  exact ⟨by decide +kernel, hVerifies⟩

end FPsPIN.Slmp
