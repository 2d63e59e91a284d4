import Mathlib.Algebra.Group.Nat.Defs
import Mathlib.Logic.Function.Basic

/-!
# Bytes, words and byte order

Memories are functions from addresses to bytes. Words are loaded and stored
with the least significant byte first, as on the host and on the cores of
PsPIN; the byte swaps turn network order into that order and back. A bit of a
swapped word is a bit of the word, so bitwise operations commute with a swap.
-/

namespace FPsPIN.Bytes

abbrev Byte := BitVec 8

abbrev Memory := Nat → Byte

/-- The bytes of a word, least significant first. -/
def bytesLE (n : Nat) (v : BitVec (8 * n)) : List Byte := (List.range n).map fun k => v.extractLsb' (8 * k) 8

@[simp] theorem length_bytesLE (n : Nat) (v : BitVec (8 * n)) : (bytesLE n v).length = n := by
  simp [bytesLE]

theorem getElem?_bytesLE {n k : Nat} (v : BitVec (8 * n)) (hk : k < n) :
    (bytesLE n v)[k]? = some (v.extractLsb' (8 * k) 8) := by
  simp [bytesLE, hk]

/-- The word at an address, least significant byte first. -/
def loadLE : (n : Nat) → Memory → Nat → BitVec (8 * n)
  | 0, _, _ => 0
  | n + 1, m, a => (loadLE n m (a + 1) ++ m a : BitVec (8 * n + 8))

theorem getLsbD_loadLE {n i : Nat} (m : Memory) (a : Nat) (hi : i < 8 * n) :
    (loadLE n m a).getLsbD i = (m (a + i / 8)).getLsbD (i % 8) := by
  induction n generalizing a i with
  | zero => omega
  | succ n ih =>
    change (loadLE n m (a + 1) ++ m a : BitVec (8 * n + 8)).getLsbD i = _
    rw [BitVec.getLsbD_append]
    by_cases hLow : i < 8
    · have hDiv : i / 8 = 0 := by omega
      have hMod : i % 8 = i := by omega
      simp [hLow, hDiv, hMod]
    · have hDiv : a + 1 + (i - 8) / 8 = a + i / 8 := by omega
      have hMod : (i - 8) % 8 = i % 8 := by omega
      rw [if_neg hLow, ih (a + 1) (by omega), hDiv, hMod]

theorem extract_loadLE {n k : Nat} (m : Memory) (a : Nat) (hk : k < n) :
    (loadLE n m a).extractLsb' (8 * k) 8 = m (a + k) := by
  apply BitVec.eq_of_getLsbD_eq
  intro i hi
  have hDiv : (8 * k + i) / 8 = k := by omega
  have hMod : (8 * k + i) % 8 = i := by omega
  rw [BitVec.getLsbD_extractLsb', decide_eq_true hi, Bool.true_and, getLsbD_loadLE m a (by omega), hDiv, hMod]

def Holds (m : Memory) (a : Nat) (bs : List Byte) : Prop := ∀ (k : Nat) (b : Byte), bs[k]? = some b → m (a + k) = b

namespace Holds

variable {m : Memory} {a : Nat} {bs cs : List Byte}

theorem left (h : Holds m a (bs ++ cs)) : Holds m a bs := by
  intro k b hb
  apply h k b
  rw [List.getElem?_append_left (List.getElem?_eq_some_iff.mp hb).1]
  exact hb

theorem right (h : Holds m a (bs ++ cs)) : Holds m (a + bs.length) cs := by
  intro k b hb
  rw [Nat.add_assoc]
  apply h (bs.length + k) b
  rw [List.getElem?_append_right (Nat.le_add_right _ _), Nat.add_sub_cancel_left]
  exact hb

theorem of_range (h : (List.range bs.length).map (fun k => m (a + k)) = bs) : Holds m a bs := by
  intro k b hb
  have hk := (List.getElem?_eq_some_iff.mp hb).1
  have hSome : ((List.range bs.length).map fun k => m (a + k))[k]? = some (m (a + k)) := by simp [hk]
  rw [h, hb] at hSome
  exact (Option.some.inj hSome).symm

theorem loadLE {n : Nat} {v : BitVec (8 * n)} (h : Holds m a (bytesLE n v)) : loadLE n m a = v := by
  apply BitVec.eq_of_getLsbD_eq
  intro i hi
  have hByte : m (a + i / 8) = v.extractLsb' (8 * (i / 8)) 8 := h _ _ (getElem?_bytesLE v (by omega))
  have hBit : 8 * (i / 8) + i % 8 = i := Nat.div_add_mod i 8
  have hMod : i % 8 < 8 := Nat.mod_lt _ (by decide)
  rw [getLsbD_loadLE m a hi, hByte, BitVec.getLsbD_extractLsb', hBit]
  simp [hMod]

end Holds

def place (m : Memory) (a : Nat) (bs : List Byte) : Memory := fun k =>
  if a ≤ k then bs[k - a]?.getD (m k) else m k

theorem place_of_outside {m : Memory} {a k : Nat} {bs : List Byte} (h : k < a ∨ a + bs.length ≤ k) :
    place m a bs k = m k := by
  unfold place
  split
  · have hNone : bs[k - a]? = none := List.getElem?_eq_none (by omega)
    rw [hNone, Option.getD_none]
  · rfl

theorem holds_place (m : Memory) (a : Nat) (bs : List Byte) : Holds (place m a bs) a bs := by
  intro k b hb
  have hSub : a + k - a = k := Nat.add_sub_cancel_left a k
  simp [place, hSub, hb]

def bswap16 (v : BitVec 16) : BitVec 16 := ((v &&& 0xff) <<< 8) ||| (v >>> 8)

def bswap32 (v : BitVec 32) : BitVec 32 :=
  ((bswap16 (v.setWidth 16)).setWidth 32 <<< 16) ||| (bswap16 ((v >>> 16).setWidth 16)).setWidth 32

theorem getLsbD_bswap16 (v : BitVec 16) {i : Nat} (hi : i < 16) :
    (bswap16 v).getLsbD i = v.getLsbD (8 * (1 - i / 8) + i % 8) := by
  have hMask : (v &&& 0xff).getLsbD (i - 8) = v.getLsbD (i - 8) := by
    have hOnes : (0xff : BitVec 16).getLsbD (i - 8) = true := by
      have hSmall : ∀ k : Fin 8, (0xff : BitVec 16).getLsbD k = true := by decide
      exact hSmall ⟨i - 8, by omega⟩
    rw [BitVec.getLsbD_and, hOnes, Bool.and_true]
  rw [bswap16, BitVec.getLsbD_or, BitVec.getLsbD_shiftLeft, BitVec.getLsbD_ushiftRight, hMask]
  by_cases hLow : i < 8
  · have hIdx : 8 * (1 - i / 8) + i % 8 = 8 + i := by omega
    simp [hLow, hIdx]
  · have hIdx : 8 * (1 - i / 8) + i % 8 = i - 8 := by omega
    have hOver : v.getLsbD (8 + i) = false := BitVec.getLsbD_of_ge _ _ (by omega)
    simp [hLow, hi, hIdx, hOver]

theorem toNat_bswap16 (v : BitVec 16) : (bswap16 v).toNat = 256 * (v.toNat % 256) + v.toNat / 256 := by
  have hLt := v.isLt
  have hMask : v.toNat &&& (0xff : BitVec 16).toNat = v.toNat % 256 := Nat.and_two_pow_sub_one_eq_mod _ 8
  rw [bswap16, BitVec.toNat_or, BitVec.toNat_shiftLeft, BitVec.toNat_ushiftRight, BitVec.toNat_and,
    Nat.shiftRight_eq_div_pow, Nat.shiftLeft_eq, hMask, Nat.mod_eq_of_lt (by omega), Nat.mul_comm]
  exact (Nat.two_pow_add_eq_or_of_lt (i := 8) (by omega) _).symm

theorem getLsbD_bswap32 (v : BitVec 32) {i : Nat} (hi : i < 32) :
    (bswap32 v).getLsbD i = v.getLsbD (8 * (3 - i / 8) + i % 8) := by
  rw [bswap32, BitVec.getLsbD_or, BitVec.getLsbD_shiftLeft, BitVec.getLsbD_setWidth, BitVec.getLsbD_setWidth]
  by_cases hLow : i < 16
  · have hIdx : 16 + (8 * (1 - i / 8) + i % 8) = 8 * (3 - i / 8) + i % 8 := by omega
    have hBound : 8 * (1 - i / 8) + i % 8 < 16 := by omega
    rw [getLsbD_bswap16 _ hLow]
    simp [hLow, hi, hBound, hIdx]
  · have hIdx : 8 * (1 - (i - 16) / 8) + (i - 16) % 8 = 8 * (3 - i / 8) + i % 8 := by omega
    have hBound : 8 * (3 - i / 8) + i % 8 < 16 := by omega
    have hOver : (bswap16 ((v >>> 16).setWidth 16)).getLsbD i = false := BitVec.getLsbD_of_ge _ _ (by omega)
    have hSub : i - 16 < 32 := by omega
    rw [getLsbD_bswap16 _ (show i - 16 < 16 by omega), hOver, hIdx]
    simp [hLow, hi, hBound, hSub]

@[simp] theorem bswap16_bswap16 (v : BitVec 16) : bswap16 (bswap16 v) = v := by
  apply BitVec.eq_of_getLsbD_eq
  intro i hi
  have hIdx : 8 * (1 - (8 * (1 - i / 8) + i % 8) / 8) + (8 * (1 - i / 8) + i % 8) % 8 = i := by omega
  rw [getLsbD_bswap16 _ hi, getLsbD_bswap16 _ (by omega), hIdx]

@[simp] theorem bswap32_bswap32 (v : BitVec 32) : bswap32 (bswap32 v) = v := by
  apply BitVec.eq_of_getLsbD_eq
  intro i hi
  have hIdx : 8 * (3 - (8 * (3 - i / 8) + i % 8) / 8) + (8 * (3 - i / 8) + i % 8) % 8 = i := by omega
  rw [getLsbD_bswap32 _ hi, getLsbD_bswap32 _ (by omega), hIdx]

theorem bswap32_and (v w : BitVec 32) : bswap32 (v &&& w) = bswap32 v &&& bswap32 w := by
  apply BitVec.eq_of_getLsbD_eq
  intro i hi
  rw [BitVec.getLsbD_and, getLsbD_bswap32 _ hi, getLsbD_bswap32 _ hi, getLsbD_bswap32 _ hi, BitVec.getLsbD_and]

/-- The word at an address, most significant byte first. -/
def loadBE : (n : Nat) → Memory → Nat → BitVec (8 * n)
  | 0, _, _ => 0
  | n + 1, m, a => (loadBE n m a ++ m (a + n) : BitVec (8 * n + 8))

theorem getLsbD_loadBE {n i : Nat} (m : Memory) (a : Nat) (hi : i < 8 * n) :
    (loadBE n m a).getLsbD i = (m (a + (n - 1 - i / 8))).getLsbD (i % 8) := by
  induction n generalizing i with
  | zero => omega
  | succ n ih =>
    change (loadBE n m a ++ m (a + n) : BitVec (8 * n + 8)).getLsbD i = _
    rw [BitVec.getLsbD_append]
    by_cases hLow : i < 8
    · have hDiv : i / 8 = 0 := by omega
      have hMod : i % 8 = i := by omega
      simp [hLow, hDiv, hMod]
    · have hDiv : n - 1 - (i - 8) / 8 = n + 1 - 1 - i / 8 := by omega
      have hMod : (i - 8) % 8 = i % 8 := by omega
      rw [if_neg hLow, ih (by omega), hDiv, hMod]

theorem loadBE_congr {n : Nat} {m m' : Memory} {a a' : Nat} (h : ∀ k < n, m (a + k) = m' (a' + k)) :
    loadBE n m a = loadBE n m' a' := by
  apply BitVec.eq_of_getLsbD_eq
  intro i hi
  rw [getLsbD_loadBE _ _ hi, getLsbD_loadBE _ _ hi, h _ (by omega)]

theorem bswap16_loadLE (m : Memory) (a : Nat) : bswap16 (loadLE 2 m a) = loadBE 2 m a := by
  apply BitVec.eq_of_getLsbD_eq
  intro i hi
  have hDiv : (8 * (1 - i / 8) + i % 8) / 8 = 2 - 1 - i / 8 := by omega
  have hMod : (8 * (1 - i / 8) + i % 8) % 8 = i % 8 := by omega
  rw [getLsbD_bswap16 _ hi, getLsbD_loadLE _ _ (by omega), getLsbD_loadBE _ _ hi, hDiv, hMod]

theorem Holds.loadBE {m : Memory} {a : Nat} {v : BitVec 16} (h : Holds m a (bytesLE 2 (bswap16 v))) :
    loadBE 2 m a = v := by
  rw [← bswap16_loadLE, h.loadLE, bswap16_bswap16]

/-- Big endian is little endian with the bytes swapped. -/
theorem bswap32_loadBE (m : Memory) (a : Nat) : bswap32 (loadBE 4 m a) = loadLE 4 m a := by
  apply BitVec.eq_of_getLsbD_eq
  intro i hi
  have hDiv : 4 - 1 - (8 * (3 - i / 8) + i % 8) / 8 = i / 8 := by omega
  have hMod : (8 * (3 - i / 8) + i % 8) % 8 = i % 8 := by omega
  rw [getLsbD_bswap32 _ hi, getLsbD_loadBE _ _ (by omega), getLsbD_loadLE _ _ hi, hDiv, hMod]

section Fields

/-- A masked comparison is about a field of the word. -/
theorem and_field_eq_iff {w n s : Nat} (x : BitVec w) (v : BitVec n) (h : s + n ≤ w) :
    x &&& (BitVec.allOnes n).setWidth w <<< s = v.setWidth w <<< s ↔ x.extractLsb' s n = v := by
  have hLeft : ∀ i, (x &&& (BitVec.allOnes n).setWidth w <<< s).getLsbD i =
      (x.getLsbD i && decide (s ≤ i ∧ i < s + n)) := by
    intro i
    rw [BitVec.getLsbD_and, BitVec.getLsbD_shiftLeft, BitVec.getLsbD_setWidth, BitVec.getLsbD_allOnes]
    grind
  have hRight : ∀ i, (v.setWidth w <<< s).getLsbD i = (v.getLsbD (i - s) && decide (s ≤ i ∧ i < s + n)) := by
    intro i
    rw [BitVec.getLsbD_shiftLeft, BitVec.getLsbD_setWidth]
    by_cases hField : i - s < n
    · grind
    · rw [BitVec.getLsbD_of_ge v _ (by omega)]
      simp
  constructor
  · intro hEq
    apply BitVec.eq_of_getLsbD_eq
    intro i hi
    have hBit := congrArg (fun y => y.getLsbD (s + i)) hEq
    have hSub : s + i - s = i := by omega
    have hField : s ≤ s + i ∧ s + i < s + n := by omega
    simp only [hLeft, hRight, hField, hSub, decide_true, Bool.and_true, and_self] at hBit
    rw [BitVec.getLsbD_extractLsb', decide_eq_true hi, Bool.true_and, hBit]
  · intro hEq
    apply BitVec.eq_of_getLsbD_eq
    intro i hi
    rw [hLeft, hRight, ← hEq, BitVec.getLsbD_extractLsb']
    by_cases hField : s ≤ i ∧ i < s + n
    · have hAdd : s + (i - s) = i := by omega
      have hSub : i - s < n := by omega
      rw [hAdd, decide_eq_true hSub, Bool.true_and]
    · simp [hField]

theorem extract_one_eq_iff {w : Nat} (x : BitVec w) (s : Nat) : x.extractLsb' s 1 = 1 ↔ x.getLsbD s = true := by
  constructor
  · intro hEq
    have hBit := congrArg (fun y => y.getLsbD 0) hEq
    simpa using hBit
  · intro hBit
    apply BitVec.eq_of_getLsbD_eq
    intro i hi
    obtain rfl : i = 0 := by omega
    simp [hBit]

theorem extract_loadBE {n k l : Nat} (m : Memory) (a : Nat) (h : k + l ≤ n) :
    (loadBE n m a).extractLsb' (8 * k) (8 * l) = loadBE l m (a + (n - k - l)) := by
  apply BitVec.eq_of_getLsbD_eq
  intro i hi
  have hAddr : n - 1 - (8 * k + i) / 8 = n - k - l + (l - 1 - i / 8) := by omega
  have hMod : (8 * k + i) % 8 = i % 8 := by omega
  rw [BitVec.getLsbD_extractLsb', decide_eq_true hi, Bool.true_and, getLsbD_loadBE _ _ (by omega),
    getLsbD_loadBE _ _ hi, hAddr, hMod, Nat.add_assoc]

theorem loadBE_one (m : Memory) (a : Nat) : loadBE 1 m a = m a := by
  apply BitVec.eq_of_getLsbD_eq
  intro i hi
  have hDiv : i / 8 = 0 := by omega
  have hMod : i % 8 = i := by omega
  rw [getLsbD_loadBE _ _ hi, hDiv, hMod]
  rfl

end Fields

end FPsPIN.Bytes
