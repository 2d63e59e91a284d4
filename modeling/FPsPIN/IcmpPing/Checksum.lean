import FPsPIN.Slmp.Checksum

/-!
# The checksum of the ping handlers

The ICMP example has a checksum of its own. It adds the words as they lie in
memory and folds the carries at the end, where ip_checksum swaps every word,
folds at every step and swaps the result back. Swapping the bytes of a word
multiplies it by 256 modulo 65535, and 256 times 256 is 1, so both leave the
same class. Neither accumulator is ever zero, so both leave the same number
of it.
-/

namespace FPsPIN.IcmpPing

open FPsPIN.Bytes FPsPIN.OnesComplement FPsPIN.Slmp

def sumWord (acc : BitVec 32) (word : BitVec 16) : BitVec 32 := acc + word.setWidth 32

/-- The two lines that fold the accumulator. -/
def foldAcc (acc : BitVec 32) : BitVec 32 := (acc &&& 0xffff#32) + ((acc >>> 16) &&& 0xffff#32)

/-- Function ip_checksum_timo on the length bytes from an address on. -/
def ipChecksumTimo (m : Memory) (a length : Nat) : BitVec 16 :=
  let words := (List.range (length / 2)).map fun k => loadLE 2 m (a + 2 * k)
  let acc : BitVec 32 := words.foldl sumWord 0xffff
  let acc := if length % 2 = 1 then acc + (m (a + length - 1)).setWidth 32 else acc
  (~~~ foldAcc (foldAcc acc)).setWidth 16

/-- The 16 bit words that both functions add, the last byte of an odd length on its own. -/
def checksumWords (m : Memory) (a length : Nat) : List (BitVec 16) :=
  ((List.range (length / 2)).map fun k => loadLE 2 m (a + 2 * k)) ++
    if length % 2 = 1 then [(m (a + length - 1)).setWidth 16] else []

theorem length_checksumWords (m : Memory) (a length : Nat) :
    (checksumWords m a length).length = (length + 1) / 2 := by
  rw [checksumWords, List.length_append, List.length_map, List.length_range]
  split
  · rw [List.length_singleton]
    omega
  · rw [List.length_nil]
    omega

theorem toNat_foldAcc (acc : BitVec 32) : (foldAcc acc).toNat = fold acc.toNat := by
  have hLt := acc.isLt
  have hMask : ∀ x : BitVec 32, (x &&& 0xffff#32).toNat = x.toNat % 2 ^ 16 :=
    fun x => (BitVec.toNat_and ..).trans (Nat.and_two_pow_sub_one_eq_mod _ 16)
  have hHigh : acc.toNat / 2 ^ 16 < 2 ^ 16 := by omega
  rw [foldAcc, BitVec.toNat_add, hMask, hMask, BitVec.toNat_ushiftRight, Nat.shiftRight_eq_div_pow, fold,
    Nat.mod_eq_of_lt hHigh]
  omega

theorem toNat_foldl_sumWord (words : List (BitVec 16)) {acc : BitVec 32} (h : acc.toNat + total words < 2 ^ 32) :
    (words.foldl sumWord acc).toNat = acc.toNat + total words := by
  induction words generalizing acc with
  | nil => rfl
  | cons word words ih =>
    rw [total_cons] at h
    have hWord : word.toNat < 65536 := word.isLt
    have hSum : (sumWord acc word).toNat = acc.toNat + word.toNat := by
      rw [sumWord, BitVec.toNat_add, BitVec.toNat_setWidth]
      omega
    rw [List.foldl_cons, ih (by omega), hSum, total_cons, Nat.add_assoc]

theorem ipChecksumTimo_eq (m : Memory) (a length : Nat) :
    ipChecksumTimo m a length =
      (~~~ foldAcc (foldAcc ((checksumWords m a length).foldl sumWord 0xffff))).setWidth 16 := by
  rw [ipChecksumTimo, checksumWords, List.foldl_append]
  split
  · have hByte : ((m (a + length - 1)).setWidth 16).setWidth 32 = (m (a + length - 1)).setWidth 32 := by
      have hLt := (m (a + length - 1)).isLt
      apply BitVec.eq_of_toNat_eq
      rw [BitVec.toNat_setWidth, BitVec.toNat_setWidth, BitVec.toNat_setWidth]
      omega
    rw [List.foldl_cons, List.foldl_nil, sumWord, hByte]
  · rfl

/-- The two checksums of a string of at most 65535 bytes are equal. -/
theorem checksums_agree (m : Memory) (a : Nat) {length : Nat} (h : length ≤ 65535) :
    ipChecksum m a length = ipChecksumTimo m a length := by
  have hWords : ipChecksum m a length =
      bswap16 ((~~~ (checksumWords m a length).foldl addWord 0xffff).setWidth 16) := rfl
  have hLength := length_checksumWords m a length
  have hTotal := total_le (checksumWords m a length)
  have hSwapped := total_map_bswap16 (checksumWords m a length)
  obtain ⟨hPos, hLe, hMod⟩ := foldl_addWord_seed (checksumWords m a length)
  have hSum : ((checksumWords m a length).foldl sumWord 0xffff).toNat =
      65535 + total (checksumWords m a length) := by
    apply toNat_foldl_sumWord
    change 65535 + _ < _
    omega
  have hTwice : (foldAcc (foldAcc ((checksumWords m a length).foldl sumWord 0xffff))).toNat =
      fold (fold (65535 + total (checksumWords m a length))) := by
    rw [toNat_foldAcc, toNat_foldAcc, hSum]
  have hBound : 65535 + total (checksumWords m a length) < 2 ^ 32 := by omega
  obtain ⟨hPosTimo, hLeTimo, hModTimo⟩ := fold_fold (Nat.add_pos_left (by decide) _) hBound
  rw [← hTwice] at hPosTimo hLeTimo hModTimo
  rw [hWords, ipChecksumTimo_eq]
  apply BitVec.eq_of_toNat_eq
  rw [toNat_bswap16, toNat_not_setWidth hLe, toNat_not_setWidth hLeTimo]
  omega

/-- Three bytes whose words add up to zero in ones' complement. -/
theorem checksums_agree_threeBytes : ipChecksum (fun k => [0xfe, 0xff, 0x01].getD k 0) 0 3 = 0 ∧
    ipChecksumTimo (fun k => [0xfe, 0xff, 0x01].getD k 0) 0 3 = 0 := by
  have hValue : ipChecksum (fun k => [0xfe, 0xff, 0x01].getD k 0) 0 3 = 0 := by decide
  exact ⟨hValue, (checksums_agree _ 0 (by decide)).symm.trans hValue⟩

end FPsPIN.IcmpPing
