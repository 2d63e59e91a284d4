import Mathlib.Algebra.GroupWithZero.Nat
import FPsPIN.Ingress.HerGen
import FPsPIN.PktMatch.Model

/-!
# Control registers

The writable registers of pspin_ctrl_regs under their sysfs names. The driver
and the register file are generated from one table: the address under which
the driver writes a register selects this register and no other, so the
register file can be taken as a function of the names. The outputs to the
match engine and to the HER generator are slices of it.
-/

namespace FPsPIN.Driver

open FPsPIN.PktMatch FPsPIN.HerGen

/-- The groups me/idx, me/mask, me/start and me/end. -/
inductive RuleField where
  | idx
  | mask
  | start
  | stop
deriving DecidableEq

/-- The groups of her_meta. -/
inductive MetaField where
  | handlerMemAddr
  | handlerMemSize
  | hostMemAddr0
  | hostMemAddr1
  | hostMemSize
  | hhAddr
  | hhSize
  | phAddr
  | phSize
  | thAddr
  | thSize
  | scratchpadAddr (i : Fin 4)
  | scratchpadSize (i : Fin 4)
deriving DecidableEq

inductive Reg where
  | clCtrl (i : Fin 2)
  | meValid
  | meMode (j : RulesetId)
  | meRule (f : RuleField) (j : RulesetId) (k : EntryId)
  | herValid
  | ctxEnabled (c : CtxId)
  | herMeta (f : MetaField) (c : CtxId)
deriving DecidableEq

/-- Enables the instruction fetch of the clusters. -/
abbrev Reg.clFetch : Reg := .clCtrl 0

/-- Resets PsPIN. -/
abbrev Reg.clReset : Reg := .clCtrl 1

abbrev RegFile := Reg → BitVec 32

section Addresses

def RuleField.number : RuleField → Nat
  | .idx => 0
  | .mask => 1
  | .start => 2
  | .stop => 3

def MetaField.number : MetaField → Nat
  | .handlerMemAddr => 0
  | .handlerMemSize => 1
  | .hostMemAddr0 => 2
  | .hostMemAddr1 => 3
  | .hostMemSize => 4
  | .hhAddr => 5
  | .hhSize => 6
  | .phAddr => 7
  | .phSize => 8
  | .thAddr => 9
  | .thSize => 10
  | .scratchpadAddr i => 11 + 2 * i
  | .scratchpadSize i => 12 + 2 * i

/-- Macro ATTR_REG_ADDR: the offset of the group, from regs-gen.h, and four bytes per register. -/
def Reg.addr : Reg → Nat
  | .clCtrl i => 0x0 + i * 4
  | .meValid => 0x2000
  | .meMode j => 0x2004 + j * 4
  | .meRule f j k => 0x2014 + 0x40 * f.number + (4 * j + k) * 4
  | .herValid => 0x3000
  | .ctxEnabled c => 0x3004 + c * 4
  | .herMeta f c => 0x4000 + 0x10 * f.number + c * 4

/-- The register of ctrl_regs that the outputs read, from the REG_OFF constants. -/
def Reg.index : Reg → Nat
  | .clCtrl i => 0 + i
  | .meValid => 8
  | .meMode j => 9 + j
  | .meRule f j k => 13 + 16 * f.number + (4 * j + k)
  | .herValid => 77
  | .ctxEnabled c => 78 + c
  | .herMeta f c => 82 + 4 * f.number + c

/-- The REG_OFF constant that goes with a block id. Only the first group of a block has a base equal to one. -/
def blockOff : Nat → Option Nat
  | 0 => some 0
  | 1 => some 3
  | 2 => some 8
  | 3 => some 77
  | 4 => some 82
  | _ => none

/-- The address decoder: block id and word in the block. -/
def regfileIdx (addr : Nat) : Option Nat := (blockOff (addr / 0x1000 % 16)).map (· + addr % 0x1000 / 4)

/-- Registers 2 to 7 are the FIFO and the statistics. -/
def readonly (index : Nat) : Bool := decide (2 ≤ index ∧ index ≤ 7)

/-- A write over the register interface. -/
def regWrite (ctrl : Nat → BitVec 32) (addr : Nat) (data : BitVec 32) : Nat → BitVec 32 :=
  match regfileIdx addr with
  | none => ctrl
  | some index => if readonly index then ctrl else Function.update ctrl index data

theorem MetaField.number_le (f : MetaField) : f.number ≤ 18 := by
  cases f <;> simp only [number] <;> omega

theorem RuleField.number_le (f : RuleField) : f.number ≤ 3 := by
  cases f <;> decide

theorem RuleField.number_injective {f g : RuleField} (h : f.number = g.number) : f = g := by
  cases f <;> cases g <;> first | rfl | cases h

theorem MetaField.number_injective {f g : MetaField} (h : f.number = g.number) : f = g := by
  cases f <;> cases g <;> simp only [number] at h <;> first | rfl | omega | (congr 1; omega)

theorem regfileIdx_block {block word : Nat} (hBlock : block < 16) (hWord : word < 1024) :
    regfileIdx (0x1000 * block + 4 * word) = (blockOff block).map (· + word) := by
  have hId : (0x1000 * block + 4 * word) / 0x1000 % 16 = block := by omega
  have hOff : (0x1000 * block + 4 * word) % 0x1000 / 4 = word := by omega
  rw [regfileIdx, hId, hOff]

theorem Reg.addr_eq (r : Reg) :
    ∃ block word off, r.addr = 0x1000 * block + 4 * word ∧ block < 16 ∧ word < 1024 ∧
    blockOff block = some off ∧ r.index = off + word := by
  cases r with
  | clCtrl i => exact ⟨0, i, 0, by simp only [Reg.addr]; omega, by decide, by omega, rfl, rfl⟩
  | meValid => exact ⟨2, 0, 8, rfl, by decide, by decide, rfl, rfl⟩
  | meMode j =>
    exact ⟨2, 1 + j, 8, by simp only [Reg.addr]; omega, by decide, by omega, rfl, by simp only [Reg.index]; omega⟩
  | meRule f j k =>
    have hField := f.number_le
    exact ⟨2, 5 + 16 * f.number + (4 * j + k), 8, by simp only [Reg.addr]; omega, by decide, by omega, rfl,
      by simp only [Reg.index]; omega⟩
  | herValid => exact ⟨3, 0, 77, rfl, by decide, by decide, rfl, rfl⟩
  | ctxEnabled c =>
    have hCtx : (c : Nat) < 4 := c.isLt
    exact ⟨3, 1 + c, 77, by simp only [Reg.addr]; omega, by decide, by omega, rfl,
      by simp only [Reg.index]; omega⟩
  | herMeta f c =>
    have hField := f.number_le
    have hCtx : (c : Nat) < 4 := c.isLt
    exact ⟨4, 4 * f.number + c, 82, by simp only [Reg.addr]; omega, by decide, by omega, rfl,
      by simp only [Reg.index]; omega⟩

theorem regfileIdx_addr (r : Reg) : regfileIdx r.addr = some r.index := by
  obtain ⟨block, word, off, hAddr, hBlock, hWord, hOff, hIndex⟩ := r.addr_eq
  rw [hAddr, regfileIdx_block hBlock hWord, hOff, hIndex]
  rfl

def Reg.range : Reg → Nat × Nat
  | .clCtrl _ => (0, 2)
  | .meValid => (8, 9)
  | .meMode _ => (9, 13)
  | .meRule .. => (13, 77)
  | .herValid => (77, 78)
  | .ctxEnabled _ => (78, 82)
  | .herMeta .. => (82, 158)

theorem Reg.index_mem_range (r : Reg) : r.range.1 ≤ r.index ∧ r.index < r.range.2 := by
  cases r with
  | meRule f j k =>
    have hField := f.number_le
    simp only [Reg.range, Reg.index]
    omega
  | herMeta f c =>
    have hField := f.number_le
    have hCtx : (c : Nat) < 4 := c.isLt
    simp only [Reg.range, Reg.index]
    omega
  | ctxEnabled c =>
    have hCtx : (c : Nat) < 4 := c.isLt
    simp only [Reg.range, Reg.index]
    omega
  | _ =>
    simp only [Reg.range, Reg.index]
    omega

theorem Reg.index_injective {r r' : Reg} (h : r.index = r'.index) : r = r' := by
  have hRange := r.index_mem_range
  have hRange' := r'.index_mem_range
  rw [← h] at hRange'
  cases r <;> cases r' <;> simp only [Reg.range] at hRange hRange' <;> simp only [Reg.index] at h
  case clCtrl.clCtrl => rw [Fin.ext (Nat.add_left_cancel h)]
  case meValid.meValid => rfl
  case meMode.meMode => rw [Fin.ext (Nat.add_left_cancel h)]
  case meRule.meRule f j k f' j' k' =>
    obtain rfl : f = f' := RuleField.number_injective (by omega)
    obtain rfl : j = j' := Fin.ext (by omega)
    obtain rfl : k = k' := Fin.ext (by omega)
    rfl
  case herValid.herValid => rfl
  case ctxEnabled.ctxEnabled => rw [Fin.ext (Nat.add_left_cancel h)]
  case herMeta.herMeta f c f' c' =>
    have hCtx : (c : Nat) < 4 := c.isLt
    have hCtx' : (c' : Nat) < 4 := c'.isLt
    obtain rfl : f = f' := MetaField.number_injective (by omega)
    obtain rfl : c = c' := Fin.ext (by omega)
    rfl
  -- the ranges of different groups do not meet
  all_goals omega

theorem Reg.not_readonly (r : Reg) : readonly r.index = false := by
  have hRange := r.index_mem_range
  rw [readonly, decide_eq_false_iff_not]
  cases r <;> simp only [Reg.range] at hRange <;> omega

/-- Through its address the driver writes the register of that name and no other. -/
theorem regWrite_addr (ctrl : Nat → BitVec 32) (r : Reg) (data : BitVec 32) :
    (fun r' => regWrite ctrl r.addr data (Reg.index r')) = Function.update
    (fun r' => ctrl (Reg.index r')) r data := by
  funext r'
  have hWrite : regWrite ctrl r.addr data = Function.update ctrl r.index data := by
    simp [regWrite, regfileIdx_addr, r.not_readonly]
  rw [hWrite]
  by_cases hr : r' = r
  · rw [hr, Function.update_self, Function.update_self]
  · rw [Function.update_of_ne hr, Function.update_of_ne (fun hIndex => hr (Reg.index_injective hIndex))]

end Addresses

section Outputs

variable (regs : RegFile)

/-- Outputs match_valid, match_mode, match_idx, match_mask, match_start and match_end. -/
def matchConf : MatchConf where
  valid := (regs .meValid).getLsbD 0
  rules :=
    { mode := fun j => (regs (.meMode j)).getLsbD 0
      rule := fun j k =>
        ⟨regs (.meRule .idx j k), regs (.meRule .mask j k), regs (.meRule .start j k), regs (.meRule .stop j k)⟩ }

/-- The her_gen outputs of one context. -/
def herMetaOf (c : CtxId) : HerMeta where
  handlerMemAddr := regs (.herMeta .handlerMemAddr c)
  handlerMemSize := regs (.herMeta .handlerMemSize c)
  hostMemAddr := regs (.herMeta .hostMemAddr1 c) ++ regs (.herMeta .hostMemAddr0 c)
  hostMemSize := regs (.herMeta .hostMemSize c)
  hhAddr := regs (.herMeta .hhAddr c)
  hhSize := regs (.herMeta .hhSize c)
  phAddr := regs (.herMeta .phAddr c)
  phSize := regs (.herMeta .phSize c)
  thAddr := regs (.herMeta .thAddr c)
  thSize := regs (.herMeta .thSize c)
  scratchpadAddr i := regs (.herMeta (.scratchpadAddr i) c)
  scratchpadSize i := regs (.herMeta (.scratchpadSize i) c)

def herConf : Conf where
  valid := (regs .herValid).getLsbD 0
  ctx := herMetaOf regs
  ctxEnabled c := (regs (.ctxEnabled c)).getLsbD 0

end Outputs

end FPsPIN.Driver
