import Mathlib.Algebra.Group.Nat.Defs
import Mathlib.Data.Nat.Log

/-!
# Counters that go up and down

A register that counts what has come and not left, with one event of each kind
in a cycle at most.
-/

namespace FPsPIN.Counter

def upDown {width : Nat} (count : BitVec width) (up down : Bool) : BitVec width :=
  match up, down with
  | true, false => count + 1
  | false, true => count - 1
  | _, _ => count

/-- The register counts as long as it neither falls below zero nor overflows. -/
theorem toNat_upDown {width : Nat} {count : BitVec width} {up down : Bool}
    (hDown : down = true → 0 < count.toNat + up.toNat) (hUp : count.toNat + up.toNat < 2 ^ width + down.toNat) :
    (upDown count up down).toNat + down.toNat = count.toNat + up.toNat := by
  cases up <;> cases down
  · rfl
  · have hPos : 0 < count.toNat := hDown rfl
    have hWidth : 1 < 2 ^ width := Nat.lt_of_le_of_lt hPos count.isLt
    have hOne : (1 : BitVec width).toNat = 1 := (BitVec.toNat_ofNat 1 width).trans (Nat.mod_eq_of_lt hWidth)
    have hLe : (1 : BitVec width) ≤ count := BitVec.le_def.mpr (hOne ▸ hPos)
    change (count - 1).toNat + 1 = count.toNat
    rw [BitVec.toNat_sub_of_le hLe, hOne]
    exact Nat.sub_add_cancel hPos
  · change count.toNat + 1 < 2 ^ width at hUp
    have hOne : (1 : BitVec width).toNat = 1 := (BitVec.toNat_ofNat 1 width).trans (Nat.mod_eq_of_lt (by omega))
    change (count + 1).toNat = count.toNat + 1
    rw [BitVec.toNat_add, hOne]
    exact Nat.mod_eq_of_lt hUp
  · rfl

/-- The width of a register that counts up to n. -/
theorem lt_two_pow_clog_succ (n : Nat) : n < 2 ^ (Nat.clog 2 n + 1) := by
  have hLe : n ≤ 2 ^ Nat.clog 2 n := Nat.le_pow_clog Nat.one_lt_two n
  have hPos := Nat.two_pow_pos (Nat.clog 2 n)
  rw [Nat.pow_succ]
  omega

end FPsPIN.Counter
