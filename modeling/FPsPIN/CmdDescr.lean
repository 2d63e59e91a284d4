import FPsPIN.Config

/-!
# The command descriptor

The descriptor of a command is a packed union of 19 words: word 0 has the low
bits, and each type of command has its own view of the 608 bits.
-/

namespace FPsPIN.CmdDescr

open Config

/-- The words w, w + 1, ... as one vector, the first in the low bits. -/
def wordsFrom (word : Nat → BitVec 32) : (n : Nat) → Nat → BitVec (32 * n)
  | 0, _ => 0
  | n + 1, w => (wordsFrom word n (w + 1) ++ word w : BitVec (32 * n + 32))

theorem getLsbD_wordsFrom (word : Nat → BitVec 32) {n i : Nat} (w : Nat) (hi : i < 32 * n) :
    (wordsFrom word n w).getLsbD i = (word (w + i / 32)).getLsbD (i % 32) := by
  induction n generalizing w i with
  | zero => omega
  | succ n ih =>
    change (wordsFrom word n (w + 1) ++ word w : BitVec (32 * n + 32)).getLsbD i = _
    rw [BitVec.getLsbD_append]
    by_cases hLow : i < 32
    · have hDiv : i / 32 = 0 := by omega
      have hMod : i % 32 = i := by omega
      simp [hLow, hDiv, hMod]
    · have hDiv : w + 1 + (i - 32) / 32 = w + i / 32 := by omega
      have hMod : (i - 32) % 32 = i % 32 := by omega
      rw [if_neg hLow, ih (w + 1) (by omega), hDiv, hMod]

def wordAt (words : Fin 19 → BitVec 32) (w : Nat) : BitVec 32 := if h : w < 19 then words ⟨w, h⟩ else 0

def descrBits (words : Fin 19 → BitVec 32) : BitVec 608 := wordsFrom (wordAt words) 19 0

theorem getLsbD_descrBits (words : Fin 19 → BitVec 32) {i w b : Nat} (hw : w < 19) (hb : b < 32)
    (hi : i = 32 * w + b) : (descrBits words).getLsbD i = (wordAt words w).getLsbD b := by
  have hDiv : 0 + i / 32 = w := by omega
  have hMod : i % 32 = b := by omega
  rw [descrBits, getLsbD_wordsFrom _ 0 (by omega), hDiv, hMod]

theorem extract_pair {words : Fin 19 → BitVec 32} {w : Nat} {v : BitVec 64} (hw : w + 1 < 19)
    (hLow : wordAt words w = v.setWidth 32) (hHigh : wordAt words (w + 1) = (v >>> 32).setWidth 32) :
    (descrBits words).extractLsb' (32 * w) 64 = v := by
  apply BitVec.eq_of_getLsbD_eq
  intro i hi
  rw [BitVec.getLsbD_extractLsb', decide_eq_true hi, Bool.true_and]
  rcases Nat.lt_or_ge i 32 with hHalf | hHalf
  · rw [getLsbD_descrBits words (by omega) hHalf rfl, hLow, BitVec.getLsbD_setWidth, decide_eq_true hHalf,
      Bool.true_and]
  · have hBit : i - 32 < 32 := by omega
    have hSum : 32 + (i - 32) = i := by omega
    rw [getLsbD_descrBits words hw hBit (by omega), hHigh, BitVec.getLsbD_setWidth, decide_eq_true hBit,
      Bool.true_and, BitVec.getLsbD_ushiftRight, hSum]

structure HostDirectCmd where
  hostAddr : HostAddr
  nicToHost : Bool
  immDataSize : BitVec 9
  immData : BitVec 512
deriving DecidableEq

def hostDirectCmd (words : Fin 19 → BitVec 32) : HostDirectCmd where
  hostAddr := (descrBits words).extractLsb' 0 64
  nicToHost := (descrBits words).getLsbD 64
  immDataSize := (descrBits words).extractLsb' 65 9
  immData := (descrBits words).extractLsb' 96 512

structure HostDmaCmd where
  hostAddr : HostAddr
  nicAddr : MemAddr
  length : MemSize
  nicToHost : Bool
deriving DecidableEq

def hostDmaCmd (words : Fin 19 → BitVec 32) : HostDmaCmd where
  hostAddr := (descrBits words).extractLsb' 0 64
  nicAddr := (descrBits words).extractLsb' 64 32
  length := (descrBits words).extractLsb' 96 32
  nicToHost := (descrBits words).getLsbD 128

structure NicCmd where
  nid : BitVec 32
  fid : BitVec 32
  srcAddr : HostAddr
  length : MemSize
deriving DecidableEq

def nicCmd (words : Fin 19 → BitVec 32) : NicCmd where
  nid := (descrBits words).extractLsb' 0 32
  fid := (descrBits words).extractLsb' 32 32
  srcAddr := (descrBits words).extractLsb' 64 64
  length := (descrBits words).extractLsb' 128 32

theorem extract_word (words : Fin 19 → BitVec 32) {w : Nat} (hw : w < 19) :
    (descrBits words).extractLsb' (32 * w) 32 = wordAt words w := by
  apply BitVec.eq_of_getLsbD_eq
  intro i hi
  rw [BitVec.getLsbD_extractLsb', decide_eq_true hi, Bool.true_and, getLsbD_descrBits words hw hi rfl]

end FPsPIN.CmdDescr
