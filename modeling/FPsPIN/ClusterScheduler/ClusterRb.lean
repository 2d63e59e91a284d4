import Mathlib.Algebra.Group.Nat.Defs
import Mathlib.Data.Nat.Log
import FPsPIN.CommonCells
import FPsPIN.Lib.Ring
import FPsPIN.Lib.Ranges

/-!
# The cluster_rb block

A buffer of slots handed out in ring order and returned in any order. A bitmap
holds the allocated slots; the head follows the tail over the free ones. An
allocation is contiguous, so the slots before the end are skipped when it does
not fit there. Slot counts are powers of two, and numbers are cut to the width
of their signal where they may exceed it.
-/

namespace FPsPIN.ClusterRb

open CommonCells Ranges FPsPIN.Ring

structure Params where
  /-- Constant $clog2(NumSlots). -/
  slotBits : Nat
  memSlotSize : Nat
  slotBits_pos : 0 < slotBits
  memSlotSize_pos : 0 < memSlotSize

namespace Params

variable (p : Params)

def numSlots : Nat := 2 ^ p.slotBits

def buffMemLength : Nat := p.numSlots * p.memSlotSize

/-- Width of elem_idx_t. -/
def idxWidth : Nat := Nat.clog 2 p.buffMemLength

theorem numSlots_pos : 0 < p.numSlots := Nat.pow_pos (by decide)

theorem two_pow_slotBits_succ : 2 ^ (p.slotBits + 1) = 2 * p.numSlots := by
  rw [numSlots, Nat.pow_succ, Nat.mul_comm]

theorem buffMemLength_pos : 0 < p.buffMemLength := Nat.mul_pos p.numSlots_pos p.memSlotSize_pos

theorem buffMemLength_le : p.buffMemLength ≤ 2 ^ p.idxWidth := Nat.le_pow_clog (by decide) _

end Params

/-- Type slot_ptr_t. -/
abbrev Ptr (p : Params) := Fin p.numSlots

/-- A number cut to slot_ptr_t. -/
def ptr (p : Params) (x : Nat) : Ptr p := ⟨x % p.numSlots, Nat.mod_lt _ p.numSlots_pos⟩

structure State (p : Params) where
  bitmapQ : Nat → Bool
  headPtrQ : Ptr p
  tailPtrQ : Ptr p

structure Input (p : Params) where
  allocValid : Bool
  allocSize : BitVec (p.idxWidth + 1)
  freeValid : Bool
  freeIndex : BitVec p.idxWidth
  freeSize : BitVec (p.idxWidth + 1)

def init (p : Params) : State p := ⟨fun _ => false, ptr p 0, ptr p 0⟩

/-- Slots for a number of bytes, cut to slot_size_t. -/
def slots (p : Params) (bytes : Nat) : Nat := (bytes + p.memSlotSize - 1) / p.memSlotSize % 2 ^ (p.slotBits + 1)

variable {p : Params}

section Combinational

variable (s : State p) (i : Input p)

def bitmapSet : Bool := (List.range p.numSlots).any s.bitmapQ

def equalFull : Bool := s.headPtrQ == s.tailPtrQ && bitmapSet s

def equalEmpty : Bool := s.headPtrQ == s.tailPtrQ && !bitmapSet s

def freeSlots : Nat :=
  if equalFull s then 0
  else if s.headPtrQ.val ≤ s.tailPtrQ.val then max (p.numSlots - s.tailPtrQ.val) s.headPtrQ.val
  else s.headPtrQ.val - s.tailPtrQ.val

def freeSpace : Nat := freeSlots s * p.memSlotSize

def pushSize : Nat := slots p i.allocSize.toNat

def popSize : Nat := slots p i.freeSize.toNat

/-- The difference of the pointers, cut to slot_size_t as its comparison with push_size requires. -/
def tailMinusHead : Nat := (s.tailPtrQ.val + 2 ^ (p.slotBits + 1) - s.headPtrQ.val) % 2 ^ (p.slotBits + 1)

def dataFits : Bool :=
  if equalFull s then false
  else if s.headPtrQ.val ≤ s.tailPtrQ.val then
    decide (pushSize i ≤ p.numSlots - s.tailPtrQ.val) || decide (pushSize i ≤ s.headPtrQ.val)
  else decide (pushSize i ≤ tailMinusHead s)

def padding : Nat :=
  if equalFull s then 0
  else if s.headPtrQ.val ≤ s.tailPtrQ.val then
    if pushSize i ≤ p.numSlots - s.tailPtrQ.val then 0
    else if pushSize i ≤ s.headPtrQ.val then p.numSlots - s.tailPtrQ.val
    else 0
  else 0

def pushEn : Bool := dataFits s i && i.allocValid

def popEn : Bool := i.freeValid

def pushIdx : Ptr p := ptr p (s.tailPtrQ.val + padding s i)

def popIdx : Ptr p := ptr p (i.freeIndex.toNat / p.memSlotSize)

def allocReady : Bool := pushEn s i

def allocIndex : Nat := (pushIdx s i).val * p.memSlotSize

def bitmapShifted (j : Nat) : Bool := s.bitmapQ (forward p.numSlots s.headPtrQ.val j)

def headPtrIncrMax : Nat :=
  if s.headPtrQ.val ≤ s.tailPtrQ.val then s.tailPtrQ.val - s.headPtrQ.val
  else s.tailPtrQ.val + p.numSlots - s.headPtrQ.val

/-- The free slots in front of the head; all of them if the bitmap is clear. -/
def headPtrIncr : Nat :=
  lzcCnt p.numSlots (bitmapShifted s) + (lzcEmpty p.numSlots (bitmapShifted s)).toNat

def headPtrIncrReal : Nat := if headPtrIncrMax s > headPtrIncr s then headPtrIncr s else headPtrIncrMax s

def pushRange : Range := ⟨(pushIdx s i).val, pushSize i⟩

def popRange : Range := ⟨(popIdx i).val, popSize i⟩

def bitmapD (j : Nat) : Bool :=
  decide (j < p.numSlots) &&
    (s.bitmapQ j ^^ (pushEn s i && decide ((pushRange s i).Covers j) || popEn i && decide ((popRange i).Covers j)))

def resetsPtrs : Bool := !pushEn s i && !popEn i && equalEmpty s

def headPtrD : Ptr p :=
  if resetsPtrs s i then ptr p 0 else ptr p (s.headPtrQ.val + headPtrIncrReal s)

def tailPtrD : Ptr p :=
  if resetsPtrs s i then ptr p 0
  else if pushEn s i then ptr p (s.tailPtrQ.val + padding s i + pushSize i) else s.tailPtrQ

def step : State p := ⟨bitmapD s i, headPtrD s i, tailPtrD s i⟩

def liveD (live : List Range) : List Range :=
  (if i.freeValid then live.erase (popRange i) else live) ++ if i.allocValid then [pushRange s i] else []

end Combinational

end FPsPIN.ClusterRb
