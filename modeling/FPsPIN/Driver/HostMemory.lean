import FPsPIN.Driver.Reconfiguration
import FPsPIN.Lib.Trace

/-!
# Host memory of the contexts

Enabling the HER generator is the only time the driver compares the host
memory registers with the DMA areas, and it skips the contexts without an
area. Later the registers stay, because the driver refuses stores to them, but
an area goes away with its last mapping. So a handler gets memory that was not
registered in two ways: registers set by hand where no area was mapped, and
registers left over from an area that was freed.
-/

namespace FPsPIN.Driver

open FPsPIN.PktMatch FPsPIN.HerGen

inductive Event where
  | store (r : Reg) (reg : BitVec 32)
  | mmap (req : MmapRequest)
  | vmaOpen (c : CtxId)
  | vmaClose (c : CtxId)

def Device.step (d : Device) : Event → Option Device
  | .store r reg => some (pspinRegStore d r reg)
  | .mmap req => (pspinMmap d req).map Prod.snd
  | .vmaOpen c => some (pspinVmaOpen d c)
  | .vmaClose c => some (pspinVmaClose d c)

/-- The context is given no host memory. -/
def Unset (d : Device) (c : CtxId) : Prop := hostdmaAddr d c = 0 ∧ hostdmaSize d c = 0

/-- The host memory registers of the context are those of the area. -/
def Names (d : Device) (c : CtxId) (area : DmaArea) : Prop :=
  area.enabled = true ∧ hostdmaAddr d c = area.dmaHandle ∧ hostdmaSize d c = area.dmaSize

/-- An enabled context that the HER generator uses has no host memory or its allocated area. -/
def Registered (d : Device) : Prop :=
  (herConf d.regs).valid = true → ∀ c, (herConf d.regs).ctxEnabled c = true →
    Unset d c ∨ Names d c (d.app.dmaAreas c)

/-- Contexts are enabled with an area or without host memory, and the last mapping of an area is not
closed while an enabled context has its address. -/
def Careful (d : Device) : Event → Prop
  | .store r reg => r = .herValid → rejects d r reg = false → reg.getLsbD 0 = true →
      ∀ c, (herConf d.regs).ctxEnabled c = true → Unset d c ∨ (d.app.dmaAreas c).enabled = true
  | .vmaClose c => (d.app.dmaAreas c).refCount = 1 → (herConf d.regs).valid = true →
      (herConf d.regs).ctxEnabled c = true → Unset d c
  | .mmap _ | .vmaOpen _ => True

variable {d : Device}

section Areas

variable {c : CtxId} {area : DmaArea}

theorem Guarded.setArea (h : Guarded d) (c : CtxId) (area : DmaArea) : Guarded (setArea d c area) :=
  ⟨h.matching, h.her⟩

theorem registered_setArea (h : Registered d) :
    Registered (setArea d c area) ↔
      ((herConf d.regs).valid = true → (herConf d.regs).ctxEnabled c = true → Unset d c ∨ Names d c area) := by
  constructor
  · intro hNew hValid hEnabled
    have hC : Unset d c ∨ Names d c (Function.update d.app.dmaAreas c area c) := hNew hValid c hEnabled
    rwa [Function.update_self] at hC
  · intro hC hValid c' hEnabled
    change Unset d c' ∨ Names d c' (Function.update d.app.dmaAreas c area c')
    by_cases hEq : c' = c
    · subst hEq
      rw [Function.update_self]
      exact hC hValid hEnabled
    · rw [Function.update_of_ne hEq]
      exact h hValid c' hEnabled

theorem Registered.allocate (h : Registered d) (hFree : (d.app.dmaAreas c).enabled = false) :
    Registered (setArea d c area) := by
  rw [registered_setArea h]
  intro hValid hEnabled
  obtain hUnset | hNames := h hValid c hEnabled
  · exact .inl hUnset
  · exact absurd hNames.1 (by simp [hFree])

theorem Registered.recount (h : Registered d) (hEnabled : area.enabled = (d.app.dmaAreas c).enabled)
    (hHandle : area.dmaHandle = (d.app.dmaAreas c).dmaHandle)
    (hSize : area.dmaSize = (d.app.dmaAreas c).dmaSize) : Registered (setArea d c area) := by
  rw [registered_setArea h]
  intro hValid hCtx
  rw [Names, hEnabled, hHandle, hSize]
  exact h hValid c hCtx

theorem Registered.vmaOpen (h : Registered d) (c : CtxId) : Registered (pspinVmaOpen d c) := h.recount rfl rfl rfl

theorem registered_vmaClose (h : Registered d) (c : CtxId) :
    Registered (pspinVmaClose d c) ↔ Careful d (.vmaClose c) := by
  rw [pspinVmaClose, Careful]
  split
  case h_1 hZero => simp [hZero, h]
  case h_2 n hCount =>
    cases n with
    | zero => rw [registered_setArea h]; simp [Names, hCount]
    | succ n => exact iff_of_true (h.recount (by simp) rfl rfl) (by simp [hCount])

end Areas

theorem mmapArea_guarded_registered (hGuarded : Guarded d) (h : Registered d) (req : MmapRequest) (c : CtxId) :
    Guarded (mmapArea d req c).2 ∧ Registered (mmapArea d req c).2 := by
  refine ⟨hGuarded.setArea c _, ?_⟩
  change Registered (setArea d c (req.onArea (d.app.dmaAreas c)).2)
  rw [MmapRequest.onArea]
  split
  · rwa [setArea_self]
  · split
    · rwa [setArea_self]
    · next hFree =>
      have hFree := Bool.eq_false_iff.mpr hFree
      split
      · exact h.allocate hFree
      · split <;> exact h.allocate hFree

theorem mmap_guarded_registered (hGuarded : Guarded d) (h : Registered d) {req : MmapRequest}
    {result : Bool × Device}
    (hMmap : pspinMmap d req = some result) : Guarded result.2 ∧ Registered result.2 := by
  unfold pspinMmap at hMmap
  split at hMmap
  · cases hMmap
  · cases hMmap
    exact ⟨hGuarded, h⟩
  · obtain ⟨c, -, rfl⟩ := Option.map_eq_some_iff.mp hMmap
    exact mmapArea_guarded_registered hGuarded h req c

section Stores

variable {r : Reg} {reg : BitVec 32}

theorem dmaAreas_checkFunc (d : Device) (r : Reg) (reg : BitVec 32) :
    (checkFunc d r reg).2.dmaAreas = d.app.dmaAreas := by
  cases r <;> simp only [checkFunc, checkClCtrl, checkMeEn, checkHerEn, checkMeInConf, checkHerInConf] <;>
    split_ifs <;> rfl

theorem names_of_enabled (hAccepted : rejects d .herValid reg = false) (hReg : reg ≠ 0) {c : CtxId}
    (hEnabled : (d.app.dmaAreas c).enabled = true) : Names d c (d.app.dmaAreas c) := by
  simp only [rejects, checkFunc, checkHerEn, if_neg hReg] at hAccepted
  split_ifs at hAccepted with hAll
  · have hOk := List.all_eq_true.mp hAll c (List.mem_finRange c)
    simp only [hostdmaOk, hEnabled, Bool.true_and, Bool.not_or, Bool.and_eq_true, Bool.not_eq_true',
      bne_eq_false_iff_eq] at hOk
    exact ⟨hEnabled, hOk⟩
  · simp at hAccepted

theorem registered_store_herValid (hAccepted : rejects d .herValid reg = false) :
    Registered (pspinRegStore d .herValid reg) ↔ Careful d (.store .herValid reg) := by
  have hRegs : (pspinRegStore d .herValid reg).regs = Function.update d.regs .herValid reg := by
    rw [pspinRegStore_of_accepts hAccepted]
  have hAreas : (pspinRegStore d .herValid reg).app.dmaAreas = d.app.dmaAreas := by
    rw [pspinRegStore_of_accepts hAccepted]
    exact dmaAreas_checkFunc d _ _
  have hNew : Registered (pspinRegStore d .herValid reg) ↔ (reg.getLsbD 0 = true → ∀ c,
      (herConf d.regs).ctxEnabled c = true → Unset d c ∨ Names d c (d.app.dmaAreas c)) := by
    simp [Registered, Unset, Names, hostdmaAddr, hostdmaSize, hAreas, hRegs, herConf]
  rw [hNew, Careful]
  constructor
  · intro h _ _ hOdd c hCtx
    exact (h hOdd c hCtx).imp_right And.left
  · intro h hOdd c hCtx
    exact (h rfl hAccepted hOdd c hCtx).imp_right (names_of_enabled hAccepted (ne_zero_of_odd hOdd))

theorem registered_store (hGuarded : Guarded d) (h : Registered d) (r : Reg) (reg : BitVec 32) :
    Registered (pspinRegStore d r reg) ↔ Careful d (.store r reg) := by
  cases hRejects : rejects d r reg with
  | true =>
    rw [pspinRegStore_of_rejects hRejects]
    simp [Careful, hRejects, h]
  | false =>
    have hRegs : (pspinRegStore d r reg).regs = Function.update d.regs r reg := by
      rw [pspinRegStore_of_accepts hRejects]
    have hAreas : (pspinRegStore d r reg).app.dmaAreas = d.app.dmaAreas := by
      rw [pspinRegStore_of_accepts hRejects]
      exact dmaAreas_checkFunc d r reg
    cases r with
    | herValid => exact registered_store_herValid hRejects
    | ctxEnabled _ | herMeta _ _ =>
      -- configuration is open, so the HER generator is off before and after
      have hConf : d.app.inHerConf = true := inHerConf_of_accepts hRejects trivial
      have hOff : (herConf d.regs).valid ≠ true := fun hValid => by simp [hGuarded.her hValid] at hConf
      simp only [Careful, reduceCtorEq, false_imp_iff, iff_true]
      intro hValid
      exact absurd (by simpa [hRegs, herConf] using hValid) hOff
    | clCtrl _ | meValid | meMode _ | meRule _ _ _ =>
      simp only [Careful, reduceCtorEq, false_imp_iff, iff_true]
      simpa [Registered, Unset, Names, hostdmaAddr, hostdmaSize, hAreas, hRegs, herConf] using h

end Stores

theorem step_registered {e : Event} {d' : Device} (hGuarded : Guarded d) (h : Registered d)
    (hStep : d.step e = some d') : Guarded d' ∧ (Registered d' ↔ Careful d e) := by
  cases e with
  | store r reg =>
    cases hStep
    exact ⟨hGuarded.store r reg, registered_store hGuarded h r reg⟩
  | mmap req =>
    obtain ⟨result, hMmap, rfl⟩ := Option.map_eq_some_iff.mp hStep
    obtain ⟨hGuarded', h'⟩ := mmap_guarded_registered hGuarded h hMmap
    exact ⟨hGuarded', iff_of_true h' trivial⟩
  | vmaOpen c =>
    cases hStep
    exact ⟨hGuarded.setArea c _, iff_of_true (h.vmaOpen c) trivial⟩
  | vmaClose c =>
    cases hStep
    refine ⟨?_, registered_vmaClose h c⟩
    rw [pspinVmaClose]
    split
    · exact hGuarded
    · exact hGuarded.setArea c _

theorem guarded_probed : Guarded probed := ⟨fun _ => rfl, fun h => absurd h (by decide)⟩

theorem registered_probed : Registered probed := fun h => absurd h (by decide)

/-- Handlers get registered host memory in all states of a run of the driver exactly if the run is
careful. -/
theorem registered_iff_careful (events : List Event) :
    (∀ taken, taken <+: events → ∀ d, Trace.run Device.step probed taken = some d → Registered d) ↔
      Trace.Along Device.step Careful probed events :=
  Trace.along_iff (fun _ _ _ => step_registered) guarded_probed registered_probed events

instance (d : Device) : Decidable (Registered d) := by
  unfold Registered Unset Names
  infer_instance

/-- A context is enabled by hand with an address that was never allocated. -/
def unmappedContext : List Event :=
  [.store (.herMeta .hostMemAddr0 defaultCtxId) 0x1000, .store (.herMeta .hostMemSize defaultCtxId) 0x1000,
    .store (.ctxEnabled defaultCtxId) 1, .store .herValid 1]

/-- A context is enabled with its area, and the area is unmapped. -/
def unmappedLater : List Event :=
  [.mmap ⟨0x1000, 0, true, true, some 0x1000, true⟩, .store (.herMeta .hostMemAddr0 defaultCtxId) 0x1000,
    .store (.herMeta .hostMemSize defaultCtxId) 0x1000, .store (.ctxEnabled defaultCtxId) 1, .store .herValid 1,
    .vmaClose defaultCtxId]

theorem unregistered_memory :
    (∃ d, Trace.run Device.step probed unmappedContext = some d ∧ ¬ Registered d) ∧
      ∃ d, Trace.run Device.step probed unmappedLater = some d ∧ ¬ Registered d :=
  ⟨⟨_, rfl, by decide +kernel⟩, ⟨_, rfl, by decide +kernel⟩⟩

end FPsPIN.Driver
