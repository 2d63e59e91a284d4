import FPsPIN.Driver.Model
import FPsPIN.Lib.Trace

/-!
# Life cycle of the host DMA areas

The reference count of an area is the number of its mappings as long as every
pspin_mmap that starts to allocate also ends well. Two of its exits come too
late: when the allocation fails the area has the new size and no buffer
address, and when the mapping fails the area stays enabled with a buffer that
no mapping refers to, so that nothing frees it and the context is refused from
then on.

Next to the areas the state has their cpu_addr, and for the statements the
number of mappings and the buffers that were allocated and freed.
-/

namespace FPsPIN.Driver

open FPsPIN.HerGen

/-- The arguments of dma_free_coherent. -/
structure Buffer where
  cpuAddr : BitVec 64
  dmaHandle : BitVec 64
  dmaSize : BitVec 64
deriving DecidableEq

structure Mappings where
  device : Device
  cpuAddr : CtxId → BitVec 64
  vmas : CtxId → Nat
  allocated : CtxId → List Buffer
  freed : CtxId → List Buffer

namespace Mappings

def area (s : Mappings) (c : CtxId) : DmaArea := s.device.app.dmaAreas c

def buffer (s : Mappings) (c : CtxId) : Buffer := ⟨s.cpuAddr c, (s.area c).dmaHandle, (s.area c).dmaSize⟩

end Mappings

def mmapContext (req : MmapRequest) : Option CtxId :=
  match req.check with
  | .context ctxId => areaIndex ctxId
  | _ => none

/-- The call gets to dma_alloc_coherent for the context. -/
def Allocates (d : Device) (req : MmapRequest) (c : CtxId) : Prop :=
  mmapContext req = some c ∧ req.mapData = true ∧ (d.app.dmaAreas c).enabled = false

/-- The calls that concern a mapping; cpuAddr is what a successful dma_alloc_coherent returns. -/
inductive MapEvent where
  | mmap (req : MmapRequest) (cpuAddr : BitVec 64)
  | vmaOpen (c : CtxId)
  | vmaClose (c : CtxId)

/-- What pspin_mmap does besides its changes to the area: it sets cpu_addr, and the kernel keeps the
mapping if the call returns zero. -/
def Mappings.afterMmap (s : Mappings) (req : MmapRequest) (cpuAddr : BitVec 64) (result : Bool × Device)
    (c : CtxId) : Mappings :=
  if req.mapData = true ∧ (s.area c).enabled = false then
    match req.dmaHandle with
    | none => { s with device := result.2, cpuAddr := Function.update s.cpuAddr c 0 }
    | some handle => { s with
        device := result.2
        cpuAddr := Function.update s.cpuAddr c cpuAddr
        vmas := if result.1 then Function.update s.vmas c (s.vmas c + 1) else s.vmas
        allocated := Function.update s.allocated c
          (s.allocated c ++ [⟨cpuAddr, handle, req.numPagesRequested * 4096#64⟩]) }
  else { s with device := result.2 }

/-- Duplications and closes are those of existing mappings. -/
def Mappings.step (s : Mappings) : MapEvent → Option Mappings
  | .mmap req cpuAddr =>
    (pspinMmap s.device req).map fun result =>
      match mmapContext req with
      | none => { s with device := result.2 }
      | some c => s.afterMmap req cpuAddr result c
  | .vmaOpen c =>
    if s.vmas c = 0 then none
    else some { s with device := pspinVmaOpen s.device c, vmas := Function.update s.vmas c (s.vmas c + 1) }
  | .vmaClose c =>
    if s.vmas c = 0 then none
    else some { s with
      device := pspinVmaClose s.device c
      vmas := Function.update s.vmas c (s.vmas c - 1)
      freed := if (s.area c).refCount = 1 ∧ (s.area c).enabled = true then
        Function.update s.freed c (s.freed c ++ [s.buffer c]) else s.freed }

structure Counted (area : DmaArea) (cpuAddr : BitVec 64) (vmas : Nat) (allocated freed : List Buffer) : Prop where
  enabled : area.enabled = true ↔ 0 < area.refCount
  vmas : area.refCount = vmas
  /-- Each buffer is freed once; the one of an enabled area is not. -/
  freed : allocated = freed ++ if area.enabled then [⟨cpuAddr, area.dmaHandle, area.dmaSize⟩] else []

def LifeCycle (s : Mappings) : Prop :=
  ∀ c, Counted (s.area c) (s.cpuAddr c) (s.vmas c) (s.allocated c) (s.freed c)

def MmapFails (s : Mappings) : MapEvent → Prop
  | .mmap req _ => ∃ d, pspinMmap s.device req = some (false, d)
  | _ => False

def SameAreas (s s' : Mappings) : Prop := ∀ c, s'.area c = s.area c ∧ s'.cpuAddr c = s.cpuAddr c

/-- The event leads to a state in which areas, mappings and buffers agree, and it leaves the areas
alone if it is a call that fails. -/
def KeepsAreas (s : Mappings) (e : MapEvent) : Prop :=
  ∀ s', s.step e = some s' → LifeCycle s' ∧ (MmapFails s e → SameAreas s s')

/-- A call that starts to allocate ends well, or the allocation fails and there is nothing to lose. -/
def Completes (s : Mappings) : MapEvent → Prop
  | .mmap req _ => ∀ c, Allocates s.device req c →
      (∃ handle, req.dmaHandle = some handle) ∧ req.mapped = true ∨
        req.dmaHandle = none ∧ (s.area c).dmaSize = req.numPagesRequested * 4096#64 ∧ s.cpuAddr c = 0
  | _ => True

section OneContext

def Mappings.set (s : Mappings) (c : CtxId) (area : DmaArea) (cpuAddr : BitVec 64) (vmas : Nat)
    (allocated freed : List Buffer) : Mappings :=
  ⟨setArea s.device c area, Function.update s.cpuAddr c cpuAddr, Function.update s.vmas c vmas,
    Function.update s.allocated c allocated, Function.update s.freed c freed⟩

variable {s : Mappings} {c : CtxId} {area : DmaArea} {cpuAddr : BitVec 64} {vmas : Nat}
  {allocated freed : List Buffer}

theorem lifeCycle_set (h : LifeCycle s) :
    LifeCycle (s.set c area cpuAddr vmas allocated freed) ↔ Counted area cpuAddr vmas allocated freed := by
  have hSelf : (s.set c area cpuAddr vmas allocated freed).area c = area := Function.update_self ..
  constructor
  · intro hSet
    have hCounted := hSet c
    rw [hSelf] at hCounted
    simpa only [Mappings.set, Function.update_self] using hCounted
  · intro hCounted c'
    by_cases hc : c' = c
    · subst hc
      rw [hSelf]
      simpa only [Mappings.set, Function.update_self] using hCounted
    · have hArea : (s.set c area cpuAddr vmas allocated freed).area c' = s.area c' := Function.update_of_ne hc ..
      rw [hArea]
      simpa only [Mappings.set, Function.update_of_ne hc] using h c'

theorem sameAreas_set :
    SameAreas s (s.set c area cpuAddr vmas allocated freed) ↔ area = s.area c ∧ cpuAddr = s.cpuAddr c := by
  constructor
  · intro h
    obtain ⟨hArea, hCpu⟩ := h c
    have hCpu : Function.update s.cpuAddr c cpuAddr c = s.cpuAddr c := hCpu
    rw [Function.update_self] at hCpu
    exact ⟨(Function.update_self ..).symm.trans hArea, hCpu⟩
  · rintro ⟨rfl, rfl⟩ c'
    constructor
    · exact congrFun (Function.update_eq_self c s.device.app.dmaAreas) c'
    · exact congrFun (Function.update_eq_self c s.cpuAddr) c'

end OneContext

section Events

variable {s s' : Mappings}

theorem pspinMmap_cases {d : Device} {req : MmapRequest} {result : Bool × Device}
    (h : pspinMmap d req = some result) :
    mmapContext req = none ∧ result = (false, d) ∨
      ∃ c, mmapContext req = some c ∧ result = mmapArea d req c := by
  unfold pspinMmap at h
  unfold mmapContext
  cases hCheck : req.check with
  | divideError =>
    rw [hCheck] at h
    cases h
  | einval =>
    rw [hCheck] at h
    exact .inl ⟨rfl, (Option.some.inj h).symm⟩
  | context ctxId =>
    rw [hCheck] at h
    obtain ⟨c, hIndex, rfl⟩ := Option.map_eq_some_iff.mp h
    exact .inr ⟨c, hIndex, rfl⟩

theorem mmapArea_of_allocates {d : Device} {req : MmapRequest} {c : CtxId} (h : Allocates d req c) :
    mmapArea d req c =
      match req.dmaHandle with
      | none => (false, setArea d c { d.app.dmaAreas c with dmaSize := req.numPagesRequested * 4096#64 })
      | some handle =>
        (req.mapped, setArea d c ⟨handle, req.numPagesRequested * 4096#64, true,
          (d.app.dmaAreas c).refCount + req.mapped.toNat⟩) := by
  obtain ⟨-, hData, hFree⟩ := h
  rw [mmapArea, MmapRequest.onArea, if_neg (by simp [hData]), if_neg (by simp [hFree])]
  cases req.dmaHandle with
  | none => rfl
  | some handle => cases req.mapped <;> rfl

theorem mmapArea_of_not_allocates {d : Device} {req : MmapRequest} {c : CtxId}
    (hContext : mmapContext req = some c)
    (h : ¬ Allocates d req c) : mmapArea d req c = (false, d) := by
  rw [mmapArea, MmapRequest.onArea]
  cases hData : req.mapData with
  | false => exact congrArg (Prod.mk false) (setArea_self d c)
  | true =>
    cases hEnabled : (d.app.dmaAreas c).enabled with
    | false => exact absurd ⟨hContext, hData, hEnabled⟩ h
    | true => exact congrArg (Prod.mk false) (setArea_self d c)

theorem step_mmap_of_not_allocates {req : MmapRequest} {cpuAddr : BitVec 64}
    (h : s.step (.mmap req cpuAddr) = some s') (hNot : ∀ c, ¬ Allocates s.device req c) : s' = s := by
  obtain ⟨result, hResult, rfl⟩ := Option.map_eq_some_iff.mp h
  obtain ⟨hNone, rfl⟩ | ⟨c, hContext, rfl⟩ := pspinMmap_cases hResult
  · rw [hNone]
  · have hGuard : ¬ (req.mapData = true ∧ (s.area c).enabled = false) := fun hGuard => hNot c ⟨hContext, hGuard⟩
    rw [hContext, mmapArea_of_not_allocates hContext (hNot c)]
    exact if_neg hGuard

theorem step_mmap_of_allocates {req : MmapRequest} {cpuAddr : BitVec 64} {c : CtxId}
    (h : s.step (.mmap req cpuAddr) = some s') (hAllocates : Allocates s.device req c) :
    (req.dmaHandle = none ∧ MmapFails s (.mmap req cpuAddr) ∧
      s' = s.set c { s.area c with dmaSize := req.numPagesRequested * 4096#64 } 0 (s.vmas c) (s.allocated c)
        (s.freed c)) ∨
    ∃ handle, req.dmaHandle = some handle ∧ (MmapFails s (.mmap req cpuAddr) ↔ req.mapped = false) ∧
      s' = s.set c ⟨handle, req.numPagesRequested * 4096#64, true, (s.area c).refCount + req.mapped.toNat⟩ cpuAddr
        (s.vmas c + req.mapped.toNat)
        (s.allocated c ++ [⟨cpuAddr, handle, req.numPagesRequested * 4096#64⟩]) (s.freed c) := by
  obtain ⟨hContext, hGuard⟩ := hAllocates
  have hFree : req.mapData = true ∧ (s.area c).enabled = false := hGuard
  obtain ⟨result, hResult, rfl⟩ := Option.map_eq_some_iff.mp h
  obtain ⟨hNone, -⟩ | ⟨c', hContext', rfl⟩ := pspinMmap_cases hResult
  · cases hNone.symm.trans hContext
  cases hContext.symm.trans hContext'
  rw [mmapArea_of_allocates ⟨hContext, hGuard⟩] at hResult ⊢
  rw [hContext]
  simp only [Mappings.afterMmap]
  rw [if_pos hFree]
  cases hHandle : req.dmaHandle with
  | none =>
    rw [hHandle] at hResult
    refine .inl ⟨rfl, ⟨_, hResult⟩, ?_⟩
    simp only [Mappings.set, Function.update_eq_self]
    rfl
  | some handle =>
    rw [hHandle] at hResult
    refine .inr ⟨handle, rfl, ?_, ?_⟩
    · constructor
      · rintro ⟨d, hFails⟩
        exact congrArg Prod.fst (Option.some.inj (hResult.symm.trans hFails))
      · intro hMapped
        exact ⟨_, hMapped ▸ hResult⟩
    · cases req.mapped <;> simp [Mappings.set, Mappings.area]

theorem lifeCycle_vmaOpen (h : LifeCycle s) {c : CtxId} (hNext : s.step (.vmaOpen c) = some s') :
    LifeCycle s' := by
  obtain ⟨hLive, hEq⟩ := Option.ite_none_left_eq_some.mp hNext
  have hSet : s' = s.set c { s.area c with refCount := (s.area c).refCount + 1 } (s.cpuAddr c) (s.vmas c + 1)
      (s.allocated c) (s.freed c) := by
    rw [← Option.some.inj hEq]
    simp only [Mappings.set, Function.update_eq_self]
    rfl
  obtain ⟨hEnabled, hVmas, hFreed⟩ := h c
  rw [hSet, lifeCycle_set h]
  refine ⟨?_, congrArg (· + 1) hVmas, hFreed⟩
  rw [hEnabled, hVmas]
  exact iff_of_true (Nat.pos_of_ne_zero hLive) (Nat.succ_pos _)

theorem lifeCycle_vmaClose (h : LifeCycle s) {c : CtxId} (hNext : s.step (.vmaClose c) = some s') :
    LifeCycle s' := by
  obtain ⟨hLive, hEq⟩ := Option.ite_none_left_eq_some.mp hNext
  obtain ⟨hEnabled, hVmas, hFreed⟩ := h c
  obtain ⟨n, hCount⟩ := Nat.exists_eq_succ_of_ne_zero (hVmas ▸ hLive)
  have hOn : (s.area c).enabled = true := hEnabled.mpr (hCount ▸ Nat.succ_pos n)
  have hClose : pspinVmaClose s.device c =
      setArea s.device c { s.area c with refCount := n, enabled := n != 0 } := by
    have hCount : (s.device.app.dmaAreas c).refCount = n + 1 := hCount
    have hOn : (s.device.app.dmaAreas c).enabled = true := hOn
    rw [pspinVmaClose, hCount]
    simp only [hOn, Bool.true_and]
    rfl
  have hSet : s' = s.set c { s.area c with refCount := n, enabled := n != 0 } (s.cpuAddr c) n (s.allocated c)
      (s.freed c ++ if n = 0 then [s.buffer c] else []) := by
    rw [← Option.some.inj hEq, hClose, ← hVmas, hCount, hOn]
    by_cases hn : n = 0
    · simp [Mappings.set, hn]
    · simp [Mappings.set, hn]
  rw [hSet, lifeCycle_set h]
  refine ⟨?_, rfl, ?_⟩
  · rw [bne_iff_ne, Nat.pos_iff_ne_zero]
  · rw [hOn, if_pos rfl] at hFreed
    rw [hFreed]
    by_cases hn : n = 0
    · simp [hn, Mappings.buffer]
    · simp [hn]

theorem keepsAreas_iff_of_step {e : MapEvent} (hNext : s.step e = some s') :
    KeepsAreas s e ↔ LifeCycle s' ∧ (MmapFails s e → SameAreas s s') := by
  constructor
  · intro h
    exact h s' hNext
  · intro h s'' hSome
    rw [← Option.some.inj (hNext.symm.trans hSome)]
    exact h

theorem completes_iff_of_allocates {req : MmapRequest} {cpuAddr : BitVec 64} {c : CtxId}
    (hAllocates : Allocates s.device req c) :
    Completes s (.mmap req cpuAddr) ↔
      (∃ handle, req.dmaHandle = some handle) ∧ req.mapped = true ∨
        req.dmaHandle = none ∧ (s.area c).dmaSize = req.numPagesRequested * 4096#64 ∧ s.cpuAddr c = 0 := by
  constructor
  · intro h
    exact h c hAllocates
  · intro h c' hOther
    cases hAllocates.1.symm.trans hOther.1
    exact h

theorem Counted.refCount_eq_zero {area : DmaArea} {cpuAddr : BitVec 64} {vmas : Nat}
    {allocated freed : List Buffer}
    (h : Counted area cpuAddr vmas allocated freed) (hFree : area.enabled = false) : area.refCount = 0 := by
  by_contra hPos
  cases hFree.symm.trans (h.enabled.mpr (Nat.pos_of_ne_zero hPos))

theorem keepsAreas_mmap_iff (h : LifeCycle s) {req : MmapRequest} {cpuAddr : BitVec 64} {c : CtxId}
    (hAllocates : Allocates s.device req c) (hNext : s.step (.mmap req cpuAddr) = some s') :
    KeepsAreas s (.mmap req cpuAddr) ↔ Completes s (.mmap req cpuAddr) := by
  have hFree : (s.area c).enabled = false := hAllocates.2.2
  have hZero := (h c).refCount_eq_zero hFree
  obtain ⟨hEnabled, hVmas, hFreed⟩ := h c
  rw [hFree, if_neg Bool.false_ne_true, List.append_nil] at hFreed
  rw [keepsAreas_iff_of_step hNext, completes_iff_of_allocates hAllocates]
  obtain ⟨hHandle, hFails, rfl⟩ | ⟨handle, hHandle, hFails, rfl⟩ := step_mmap_of_allocates hNext hAllocates
  · rw [lifeCycle_set h, sameAreas_set]
    have hCounted : Counted { s.area c with dmaSize := req.numPagesRequested * 4096#64 } 0 (s.vmas c)
        (s.allocated c) (s.freed c) := ⟨hEnabled, hVmas, by simpa [hFree] using hFreed⟩
    have hSize : { s.area c with dmaSize := req.numPagesRequested * 4096#64 } = s.area c ↔
        (s.area c).dmaSize = req.numPagesRequested * 4096#64 := by
      constructor
      · intro hSame
        exact (congrArg DmaArea.dmaSize hSame).symm
      · intro hSame
        rw [← hSame]
    rw [hSize, hHandle]
    simp only [hCounted, hFails, true_and, forall_const, reduceCtorEq, exists_false, false_and, false_or, eq_comm]
  · rw [lifeCycle_set h, hFails, hHandle]
    cases hMapped : req.mapped with
    | false =>
      -- enabled, and nothing maps it
      refine iff_of_false (fun hBoth => ?_) (by simp)
      have hPos := hBoth.1.enabled.mp rfl
      simp [hZero] at hPos
    | true =>
      refine iff_of_true ⟨⟨?_, ?_, ?_⟩, by simp⟩ (.inl ⟨⟨handle, rfl⟩, rfl⟩)
      · simp
      · simpa using hVmas
      · simpa using hFreed

theorem keepsAreas_iff (h : LifeCycle s) {e : MapEvent} (hNext : s.step e = some s') :
    KeepsAreas s e ↔ Completes s e := by
  cases e with
  | vmaOpen c => exact iff_of_true (fun s'' hSome => ⟨lifeCycle_vmaOpen h hSome, False.elim⟩) trivial
  | vmaClose c => exact iff_of_true (fun s'' hSome => ⟨lifeCycle_vmaClose h hSome, False.elim⟩) trivial
  | mmap req cpuAddr =>
    by_cases hNone : ∃ c, Allocates s.device req c
    · obtain ⟨c, hAllocates⟩ := hNone
      exact keepsAreas_mmap_iff h hAllocates hNext
    · rw [not_exists] at hNone
      refine iff_of_true (fun s'' hSome => ?_) fun c hAllocates => absurd hAllocates (hNone c)
      rw [step_mmap_of_not_allocates hSome hNone]
      exact ⟨h, fun _ _ => ⟨rfl, rfl⟩⟩

end Events

section Runs

/-- After the probe no area has been mapped. -/
def Mappings.start : Mappings := ⟨probed, fun _ => 0, fun _ => 0, fun _ => [], fun _ => []⟩

theorem lifeCycle_start : LifeCycle Mappings.start :=
  fun _ => ⟨iff_of_false Bool.false_ne_true (Nat.lt_irrefl 0), rfl, rfl⟩

/-- Areas, mappings and buffers agree in every state of a run, and calls that fail leave the areas
alone, exactly if every call that starts to allocate completes. -/
theorem lifeCycle_along_iff (events : List MapEvent) :
    Trace.Along Mappings.step KeepsAreas Mappings.start events ↔
      Trace.Along Mappings.step Completes Mappings.start events := by
  apply Trace.along_congr _ _ lifeCycle_start
  · intro s e s' h hNext
    exact keepsAreas_iff h hNext
  · intro s e s' _ hKeeps hNext
    exact (hKeeps s' hNext).1

/-- One page for context 0; the allocation succeeds and the page is not mapped. -/
def unmappedRequest : MmapRequest := ⟨4096, 0, true, true, some 0x10000, false⟩

def exhaustedRequest : MmapRequest := { unmappedRequest with dmaHandle := none }

/-- An area can be enabled without a mapping, and a call that fails for lack of memory changes the size. -/
theorem lifeCycle_broken :
    ¬ Trace.Along Mappings.step KeepsAreas Mappings.start [.mmap unmappedRequest 0x1000] ∧
      ¬ Trace.Along Mappings.step KeepsAreas Mappings.start [.mmap exhaustedRequest 0] := by
  constructor
  · have hArea : (Mappings.start.step (.mmap unmappedRequest 0x1000)).map
        (fun s => ((s.area defaultCtxId).enabled, (s.area defaultCtxId).refCount)) = some (true, 0) := by
      decide +kernel
    obtain ⟨s, hNext, hPair⟩ := Option.map_eq_some_iff.mp hArea
    intro hAlong
    have hEnabled := ((hAlong s hNext).1 s hNext).1 defaultCtxId |>.enabled
    simp_all
  · have hArea : (Mappings.start.step (.mmap exhaustedRequest 0)).map (fun s => (s.area defaultCtxId).dmaSize) =
      some 4096 := by
      decide +kernel
    obtain ⟨s, hNext, hSize⟩ := Option.map_eq_some_iff.mp hArea
    have hFails : (pspinMmap Mappings.start.device exhaustedRequest).map Prod.fst = some false := by
      decide +kernel
    obtain ⟨⟨_, d⟩, hResult, rfl⟩ := Option.map_eq_some_iff.mp hFails
    intro hAlong
    have hSame := (((hAlong s hNext).1 s hNext).2 ⟨d, hResult⟩ defaultCtxId).1
    rw [hSame] at hSize
    exact absurd hSize (by decide)

end Runs

end FPsPIN.Driver
