import FPsPIN.Driver.Registers
import FPsPIN.Lib.Bytes

/-!
# The kernel driver

Register stores through sysfs with their checks, the register writes of the
probe function, and the life cycle of the host DMA areas. A check may change
the driver state and then accept or refuse the store. What the kernel decides
(the DMA address it allocates, whether an allocation or a mapping fails) is an
argument.
-/

namespace FPsPIN.Driver

open FPsPIN.PktMatch FPsPIN.HerGen FPsPIN.Bytes

/-- Struct dma_area_int. -/
structure DmaArea where
  dmaHandle : BitVec 64
  dmaSize : BitVec 64
  enabled : Bool
  refCount : Nat
deriving DecidableEq

/-- The driver state in struct mqnic_app_pspin. -/
structure App where
  inReset : Bool
  inHerConf : Bool
  inMeConf : Bool
  dmaAreas : CtxId → DmaArea

structure Device where
  regs : RegFile
  app : App

section Checks

variable (d : Device)

/-- Number of bits in use: 32 - __builtin_clz. -/
def bitLength (reg : BitVec 32) : Nat := if reg = 0 then 0 else Nat.log2 reg.toNat + 1

def checkClCtrl (idx : Fin 2) (reg : BitVec 32) : Bool × App :=
  if idx.val ≠ 0 ∧ reg > 1 then (false, d.app)
  else if bitLength reg > 2 then (false, d.app)
  else if idx.val ≠ 0 then (true, { d.app with inReset := reg != 0 })
  else (true, d.app)

def checkMeEn (reg : BitVec 32) : Bool × App := (true, { d.app with inMeConf := reg == 0 })

/-- The host memory registers of a context. -/
def hostdmaAddr (c : CtxId) : BitVec 64 :=
  (d.regs (.herMeta .hostMemAddr0 c)).setWidth 64 + (d.regs (.herMeta .hostMemAddr1 c)).setWidth 64 <<< 32

def hostdmaSize (c : CtxId) : BitVec 64 := (d.regs (.herMeta .hostMemSize c)).setWidth 64

/-- The loop body of check_her_en does not refuse the context. -/
def hostdmaOk (c : CtxId) : Bool :=
  !((d.app.dmaAreas c).enabled &&
    (hostdmaAddr d c != (d.app.dmaAreas c).dmaHandle || hostdmaSize d c != (d.app.dmaAreas c).dmaSize))

def checkHerEn (reg : BitVec 32) : Bool × App :=
  if reg = 0 then (true, { d.app with inHerConf := true })
  else if (List.finRange numHandlerCtx).all (hostdmaOk d) then (true, { d.app with inHerConf := false })
  else (false, d.app)

def checkMeInConf : Bool × App := (d.app.inMeConf, d.app)

def checkHerInConf : Bool × App := (d.app.inHerConf, d.app)

/-- The check_func of each register. -/
def checkFunc (r : Reg) (reg : BitVec 32) : Bool × App :=
  match r with
  | .clCtrl i => checkClCtrl d i reg
  | .meValid => checkMeEn d reg
  | .meMode _ | .meRule .. => checkMeInConf d
  | .herValid => checkHerEn d reg
  | .ctxEnabled _ | .herMeta .. => checkHerInConf d

/-- Function pspin_reg_store, with the number read from the buffer. -/
def pspinRegStore (r : Reg) (reg : BitVec 32) : Device :=
  if (checkFunc d r reg).1 then ⟨Function.update d.regs r reg, (checkFunc d r reg).2⟩
  else ⟨d.regs, (checkFunc d r reg).2⟩

def rejects (r : Reg) (reg : BitVec 32) : Bool := !(checkFunc d r reg).1

end Checks

section Probe

def resetRegs : RegFile := fun r => if r = .clReset then BitVec.allOnes 32 else 0

/-- The register writes of mqnic_app_pspin_probe. -/
def probeWrites : List (Reg × BitVec 32) :=
  (.clReset, 0) ::
    ((List.finRange 4).flatMap fun j => (List.finRange 4).map fun k => (.meRule .start j k, bswap32 1)) ++
    [(.meValid, 1)]

def probingApp : App := ⟨true, true, true, fun _ => ⟨0, 0, false, 0⟩⟩

def probedApp : App := { probingApp with inReset := false, inMeConf := false }

def iowrite32 (regs : RegFile) (w : Reg × BitVec 32) : RegFile := Function.update regs w.1 w.2

def probed : Device := ⟨probeWrites.foldl iowrite32 resetRegs, probedApp⟩

end Probe

section Mappings

variable (d : Device)

def setArea (c : CtxId) (area : DmaArea) : Device :=
  { d with app := { d.app with dmaAreas := Function.update d.app.dmaAreas c area } }

def DmaArea.addRef (area : DmaArea) : DmaArea := { area with refCount := area.refCount + 1 }

def pspinVmaOpen (c : CtxId) : Device := setArea d c (d.app.dmaAreas c).addRef

/-- With the last reference the area is freed. -/
def pspinVmaClose (c : CtxId) : Device :=
  match (d.app.dmaAreas c).refCount with
  | 0 => d
  | n + 1 => setArea d c { d.app.dmaAreas c with
      refCount := n
      enabled := (d.app.dmaAreas c).enabled && n != 0 }

/-- A call of mmap on the device: length in bytes, page offset, and the answers of the kernel. -/
structure MmapRequest where
  len : BitVec 64
  pgoff : BitVec 64
  shared : Bool
  /-- Memory for the mapping data. -/
  mapData : Bool
  /-- Result of dma_alloc_coherent. -/
  dmaHandle : Option (BitVec 64)
  /-- Success of vm_iomap_memory. -/
  mapped : Bool

/-- An int, as it is widened in the two expressions that use it. -/
def MmapRequest.numPagesRequested (req : MmapRequest) : BitVec 64 :=
  ((req.len / 4096#64).setWidth 32).signExtend 64

def MmapRequest.ctxId (req : MmapRequest) : Int :=
  ((req.pgoff / req.numPagesRequested).setWidth 32).toInt

/-- What the checks of pspin_mmap before the choice of the area come to. -/
inductive MmapCheck where
  | divideError
  | einval
  | context (ctxId : Int)
deriving DecidableEq

/-- The page count is divided by before anything is tested, and of the context number, which is signed, only the upper
bound is. -/
def MmapRequest.check (req : MmapRequest) : MmapCheck :=
  if req.numPagesRequested = 0 then .divideError
  else if 4 ≤ req.ctxId then .einval
  else if !req.shared then .einval
  else .context req.ctxId

inductive MmapEnd where
  | enomem
  | eagain
  | eio
  | ok
deriving DecidableEq

/-- The part of pspin_mmap after the choice of the area, on what it finds in it. A failed allocation leaves the new
size behind, a failed mapping leaves the area enabled. -/
def MmapRequest.onArea (req : MmapRequest) (area : DmaArea) : MmapEnd × DmaArea :=
  if !req.mapData then (.enomem, area)
  else if area.enabled then (.eagain, area)
  else
    let size := req.numPagesRequested * 4096#64
    match req.dmaHandle with
    | none => (.enomem, { area with dmaSize := size })
    | some handle =>
      let allocated := { area with dmaSize := size, dmaHandle := handle, enabled := true }
      if req.mapped then (.ok, allocated.addRef) else (.eio, allocated)

/-- With true for a return value of zero. -/
def mmapArea (req : MmapRequest) (c : CtxId) : Bool × Device :=
  (decide ((req.onArea (d.app.dmaAreas c)).1 = .ok), setArea d c (req.onArea (d.app.dmaAreas c)).2)

def areaIndex (ctxId : Int) : Option CtxId :=
  if h : 0 ≤ ctxId ∧ ctxId.toNat < numHandlerCtx then some ⟨ctxId.toNat, h.2⟩ else none

/-- Function pspin_mmap. There is no result where the source divides by zero or leaves dma_areas. -/
def pspinMmap (req : MmapRequest) : Option (Bool × Device) :=
  match req.check with
  | .divideError => none
  | .einval => some (false, d)
  | .context ctxId => (areaIndex ctxId).map (mmapArea d req)

theorem MmapRequest.check_cases (req : MmapRequest) :
    req.check = .divideError ∧ req.numPagesRequested = 0 ∨
      req.check = .einval ∧ req.numPagesRequested ≠ 0 ∧ (req.shared = true → 4 ≤ req.ctxId) ∨
      req.check = .context req.ctxId ∧ req.numPagesRequested ≠ 0 ∧ req.shared = true ∧ req.ctxId < 4 := by
  rw [check]
  split_ifs with hPages hLarge hPrivate
  · exact .inl ⟨rfl, hPages⟩
  · exact .inr (.inl ⟨rfl, hPages, fun _ => hLarge⟩)
  · exact .inr (.inl ⟨rfl, hPages, fun hShared => by simp [hShared] at hPrivate⟩)
  · exact .inr (.inr ⟨rfl, hPages, by simpa using hPrivate, Int.not_le.mp hLarge⟩)

theorem areaIndex_of_lt {ctxId : Int} (h : ctxId < 4) : (areaIndex ctxId).isSome = true ↔ 0 ≤ ctxId := by
  rw [areaIndex]
  split
  · next hInside => exact iff_of_true rfl hInside.1
  · next hOutside =>
    refine iff_of_false Bool.false_ne_true fun hNat => hOutside ⟨hNat, ?_⟩
    change ctxId.toNat < 4
    omega

theorem setArea_self (d : Device) (c : CtxId) : setArea d c (d.app.dmaAreas c) = d := by
  rw [setArea, Function.update_eq_self]

end Mappings

end FPsPIN.Driver
