import FPsPIN.Loader.SlmpClassification

/-!
# Contexts and rulesets

A context is loaded into the registers of its own number, but its ruleset is
always programmed as ruleset 0, and the ruleset is the context that a tag
names. Unloading clears the ruleset with the number of the context. For
context 0 the four numbers agree. For the others a matching frame is served by
context 0, which is not set up, and the ruleset stays when the context is
gone.
-/

namespace FPsPIN.Loader

open FPsPIN.PktMatch FPsPIN.Bytes FPsPIN.PriorityEncoder FPsPIN.Driver FPsPIN.HerGen

section Mapping

variable (destCtx : CtxId) (handle : BitVec 64) {pages : Nat}

theorem numPagesRequested_hostdma (hMax : pages < 2 ^ 19) :
    (hostdmaRequest destCtx pages handle).numPagesRequested = BitVec.ofNat 64 pages := by
  have hPages : (BitVec.ofNat 64 (pages * 4096) / 4096#64).setWidth 32 = BitVec.ofNat 32 pages := by
    apply BitVec.eq_of_toNat_eq
    rw [BitVec.toNat_setWidth, BitVec.toNat_udiv, BitVec.toNat_ofNat, BitVec.toNat_ofNat, BitVec.toNat_ofNat,
      Nat.mod_eq_of_lt (show pages * 4096 < 2 ^ 64 by omega), Nat.mod_eq_of_lt (show 4096 < 2 ^ 64 by decide),
      Nat.mul_div_cancel _ (by decide)]
  have hMsb : (BitVec.ofNat 32 pages).msb = false := by
    rw [BitVec.msb_eq_false_iff_two_mul_lt, BitVec.toNat_ofNat]
    omega
  rw [MmapRequest.numPagesRequested]
  change ((BitVec.ofNat 64 (pages * 4096) / 4096#64).setWidth 32).signExtend 64 = _
  rw [hPages, BitVec.signExtend_eq_setWidth_of_msb_false hMsb]
  apply BitVec.eq_of_toNat_eq
  simp only [BitVec.toNat_setWidth, BitVec.toNat_ofNat]
  omega

theorem ctxId_hostdma (hPos : 0 < pages) (hMax : pages < 2 ^ 19) :
    (hostdmaRequest destCtx pages handle).ctxId = destCtx := by
  have hCtx : destCtx.val < 4 := destCtx.isLt
  have hProd : destCtx.val * pages < 4 * 2 ^ 19 := Nat.mul_lt_mul_of_lt_of_lt hCtx hMax
  have hDiv : (BitVec.ofNat 64 (destCtx.val * pages) / BitVec.ofNat 64 pages).setWidth 32 =
      BitVec.ofNat 32 destCtx.val := by
    apply BitVec.eq_of_toNat_eq
    rw [BitVec.toNat_setWidth, BitVec.toNat_udiv, BitVec.toNat_ofNat, BitVec.toNat_ofNat, BitVec.toNat_ofNat,
      Nat.mod_eq_of_lt (show destCtx.val * pages < 2 ^ 64 by omega), Nat.mod_eq_of_lt (show pages < 2 ^ 64 by omega),
      Nat.mul_div_cancel _ hPos]
  rw [MmapRequest.ctxId, numPagesRequested_hostdma destCtx handle hMax]
  change ((BitVec.ofNat 64 (destCtx.val * pages) / BitVec.ofNat 64 pages).setWidth 32).toInt = _
  have hSmall : (BitVec.ofNat 32 destCtx.val).toNat = destCtx.val := by
    rw [BitVec.toNat_ofNat, Nat.mod_eq_of_lt (by omega)]
  rw [hDiv, BitVec.toInt_eq_toNat_of_lt (by rw [hSmall]; omega), hSmall]

def mappedDevice (destCtx : CtxId) (pages : Nat) (handle : BitVec 64) : Device :=
  { probed with app := { probed.app with
      dmaAreas := Function.update probed.app.dmaAreas destCtx ⟨handle, BitVec.ofNat 64 (pages * 4096), true, 1⟩ } }

theorem pspinMmap_hostdma (hPos : 0 < pages) (hMax : pages < 2 ^ 19) :
    pspinMmap probed (hostdmaRequest destCtx pages handle) = some (true, mappedDevice destCtx pages handle) := by
  have hCtx : destCtx.val < 4 := destCtx.isLt
  have hPages : (hostdmaRequest destCtx pages handle).numPagesRequested ≠ 0 := by
    rw [numPagesRequested_hostdma destCtx handle hMax]
    intro hZero
    have hNat := congrArg BitVec.toNat hZero
    rw [BitVec.toNat_ofNat, Nat.mod_eq_of_lt (show pages < 2 ^ 64 by omega)] at hNat
    simp at hNat
    omega
  have hArea : mmapArea probed (hostdmaRequest destCtx pages handle) destCtx =
      (true, mappedDevice destCtx pages handle) := by
    have hSize : (hostdmaRequest destCtx pages handle).numPagesRequested * 4096#64 =
        BitVec.ofNat 64 (pages * 4096) := by
      rw [numPagesRequested_hostdma destCtx handle hMax, BitVec.ofNat_mul]
    have hFree : (probed.app.dmaAreas destCtx).enabled = false := rfl
    rw [mmapArea, MmapRequest.onArea, hSize, hFree]
    rfl
  have hId := ctxId_hostdma destCtx handle hPos hMax
  have hCheck : (hostdmaRequest destCtx pages handle).check = .context destCtx := by
    rw [MmapRequest.check, if_neg hPages, if_neg (by rw [hId]; omega), hId]
    rfl
  have hIndex : areaIndex destCtx = some destCtx := by
    rw [areaIndex, dif_pos ⟨Int.natCast_nonneg _, destCtx.isLt⟩]
    rfl
  rw [pspinMmap, hCheck]
  simp only [hIndex, Option.map_some, hArea]

end Mapping

section Load

theorem run_fetch_reset (d : Device) :
    Trace.run writeReg d (fetchOff ++ cycleReset) =
      some ⟨(fetchOff ++ cycleReset).foldl iowrite32 d.regs, { d.app with inReset := false }⟩ :=
  Trace.run_cons.mpr ⟨_, writeReg_of_check rfl, Trace.run_cons.mpr ⟨_, writeReg_of_check rfl,
    Trace.run_cons.mpr ⟨_, writeReg_of_check rfl, rfl⟩⟩⟩

theorem run_fetch_reset_fetch (d : Device) :
    Trace.run writeReg d (fetchOff ++ cycleReset ++ fetchOn) =
      some ⟨(fetchOff ++ cycleReset ++ fetchOn).foldl iowrite32 d.regs, { d.app with inReset := false }⟩ := by
  rw [Trace.run_append, run_fetch_reset, Option.bind_some, List.foldl_append]
  exact Trace.run_cons.mpr ⟨_, writeReg_of_check rfl, rfl⟩

theorem fetch_reset_of_ne (regs : RegFile) {r : Reg} (hr : ∀ i, r ≠ .clCtrl i) :
    (fetchOff ++ cycleReset).foldl iowrite32 regs r = regs r := by
  refine foldl_iowrite32_of_not_mem (fun w hw hReg => ?_) _
  simp only [fetchOff, cycleReset, List.cons_append, List.nil_append, List.mem_cons, List.not_mem_nil, or_false] at hw
  obtain rfl | rfl | rfl := hw
  · exact hr 0 hReg.symm
  · exact hr 1 hReg.symm
  · exact hr 1 hReg.symm

variable (ctxId : CtxId) (img : Image) (ptr : BitVec 64) (size : BitVec 32)

/-- The registers after fpspin_load. -/
def loadedRegs (regs : RegFile) : RegFile :=
  iowrite32 ((contextWrites ctxId img ptr size).foldl iowrite32
    (iowrite32 ((fetchOff ++ cycleReset ++ fetchOn).foldl iowrite32 regs) (.herValid, 0))) (.herValid, 1)

/-- What the HER generator is to get for the context. -/
def Image.herMeta : HerMeta where
  handlerMemAddr := img.l2Daddr + img.l2Dsize
  handlerMemSize := 0x1c100000 - img.l2Daddr
  hostMemAddr := ptr
  hostMemSize := size
  hhAddr := img.hh.getD 0
  hhSize := if img.hh.isSome then 4096 else 0
  phAddr := img.ph.getD 0
  phSize := if img.ph.isSome then 4096 else 0
  thAddr := img.th.getD 0
  thSize := if img.th.isSome then 4096 else 0
  scratchpadAddr _ := 0
  scratchpadSize i := if i.val < 2 then 4096 else 0

theorem contextWrites_ofContexts : ∀ w ∈ contextWrites ctxId img ptr size, w.1.OfContexts := by
  simp [contextWrites_eq, setHandler, setHandlerMem, Reg.OfContexts]

theorem loadedRegs_herValid (regs : RegFile) : loadedRegs ctxId img ptr size regs .herValid = 1 := by
  rw [loadedRegs, iowrite32, Function.update_self]

variable {ctxId} {regs : RegFile}

theorem loadedRegs_ctxEnabled : loadedRegs ctxId img ptr size regs (.ctxEnabled ctxId) = 1 := by
  simp [loadedRegs, contextWrites_eq, setHandler, setHandlerMem, fetchOff, cycleReset, fetchOn, iowrite32]

theorem append_words (ptr : BitVec 64) : (ptr >>> 32).setWidth 32 ++ ptr.setWidth 32 = ptr := by
  apply BitVec.eq_of_getLsbD_eq
  intro i hi
  rw [BitVec.getLsbD_append]
  by_cases hLow : i < 32
  · simp [hLow]
  · have hSub : i - 32 < 32 := by omega
    have hAdd : 32 + (i - 32) = i := by omega
    simp [hLow, hSub, hAdd]

theorem loadedRegs_scratchpadSize (hZero : ∀ f, regs (.herMeta f ctxId) = 0) (i : Fin 4) :
    loadedRegs ctxId img ptr size regs (.herMeta (.scratchpadSize i) ctxId) = if i.val < 2 then 4096 else 0 := by
  match i with
  | 0 | 1 | 2 | 3 =>
    simp [loadedRegs, contextWrites_eq, setHandler, setHandlerMem, fetchOff, cycleReset, fetchOn, iowrite32, hZero]

theorem herMetaOf_loadedRegs (hZero : ∀ f, regs (.herMeta f ctxId) = 0) :
    herMetaOf (loadedRegs ctxId img ptr size regs) ctxId = img.herMeta ptr size := by
  rw [herMetaOf, funext (loadedRegs_scratchpadSize img ptr size hZero)]
  simp [loadedRegs, contextWrites_eq, setHandler, setHandlerMem, fetchOff, cycleReset, fetchOn, iowrite32,
    Image.herMeta, hZero, append_words]

theorem loadedRegs_other {c : CtxId} (hOther : c ≠ ctxId) :
    (∀ f, loadedRegs ctxId img ptr size regs (.herMeta f c) = regs (.herMeta f c)) ∧
      loadedRegs ctxId img ptr size regs (.ctxEnabled c) = regs (.ctxEnabled c) := by
  constructor
  · intro f
    simp [loadedRegs, contextWrites_eq, setHandler, setHandlerMem, fetchOff, cycleReset, fetchOn, iowrite32, hOther]
  · simp [loadedRegs, contextWrites_eq, setHandler, setHandlerMem, fetchOff, cycleReset, fetchOn, iowrite32, hOther]

theorem loadedRegs_of_rules {r : Reg} (h : r.OfRules) : loadedRegs ctxId img ptr size regs r = regs r := by
  cases r <;> first
    | exact h.elim
    | simp [loadedRegs, contextWrites_eq, setHandler, setHandlerMem, fetchOff, cycleReset, fetchOn, iowrite32]

theorem hostdma_loaded (app : App) (ctxId : CtxId) (regs : RegFile) :
    hostdmaAddr ⟨(contextWrites ctxId img ptr size).foldl iowrite32 regs, app⟩ ctxId = ptr ∧
      hostdmaSize ⟨(contextWrites ctxId img ptr size).foldl iowrite32 regs, app⟩ ctxId = size.setWidth 64 := by
  constructor
  · rw [hostdmaAddr]
    simp only [contextWrites_eq, setHandler, setHandlerMem, iowrite32, List.cons_append, List.nil_append,
      List.foldl_cons, List.foldl_nil]
    simp only [ne_eq, reduceCtorEq, not_false_eq_true, Reg.herMeta.injEq, false_and, Function.update_of_ne,
      Function.update_self]
    bv_omega
  · simp [hostdmaSize, contextWrites_eq, setHandler, setHandlerMem, iowrite32]

theorem hostdmaOk_mapped (destCtx : CtxId) (handle : BitVec 64) {pages : Nat} (hMax : pages < 2 ^ 19) (regs : RegFile)
    (c : CtxId) :
    hostdmaOk ⟨(contextWrites destCtx img handle ((BitVec.ofNat 64 (pages * 4096)).setWidth 32)).foldl iowrite32 regs,
      { (mappedDevice destCtx pages handle).app with inReset := false, inHerConf := true }⟩ c = true := by
  have hSize : ((BitVec.ofNat 64 (pages * 4096)).setWidth 32).setWidth 64 = BitVec.ofNat 64 (pages * 4096) := by
    apply BitVec.eq_of_toNat_eq
    simp only [BitVec.toNat_setWidth, BitVec.toNat_ofNat]
    omega
  by_cases hc : c = destCtx
  · subst hc
    obtain ⟨hAddr, hLen⟩ := hostdma_loaded img handle ((BitVec.ofNat 64 (pages * 4096)).setWidth 32)
      { (mappedDevice c pages handle).app with inReset := false, inHerConf := true } c regs
    rw [hostdmaOk, hAddr, hLen, hSize]
    simp [mappedDevice]
  · have hFree : ((mappedDevice destCtx pages handle).app.dmaAreas c).enabled = false := by
      simp only [mappedDevice, Function.update_of_ne hc]
      rfl
    simp [hostdmaOk, hFree]

theorem run_herOff (d : Device) :
    Trace.run writeReg d herOff = some ⟨iowrite32 d.regs (.herValid, 0), { d.app with inHerConf := true }⟩ :=
  Trace.run_cons.mpr ⟨_, writeReg_of_check rfl, rfl⟩

/-- Loading a context succeeds when its area is the only one. -/
theorem run_fpspinLoad (destCtx : CtxId) (handle : BitVec 64) {pages : Nat} (hMax : pages < 2 ^ 19) :
    Trace.run writeReg (mappedDevice destCtx pages handle)
        (fpspinLoad destCtx img handle ((BitVec.ofNat 64 (pages * 4096)).setWidth 32)) =
      some ⟨loadedRegs destCtx img handle ((BitVec.ofNat 64 (pages * 4096)).setWidth 32) probed.regs,
        { (mappedDevice destCtx pages handle).app with inHerConf := false }⟩ := by
  rw [fpspinLoad, Trace.run_append, run_fetch_reset_fetch, Option.bind_some, Trace.run_append, Trace.run_append,
    run_herOff, Option.bind_some, run_contextWrites rfl (contextWrites_ofContexts _ _ _ _), Option.bind_some]
  refine Trace.run_cons.mpr ⟨_, writeReg_of_check ?_, rfl⟩
  rw [checkFunc, checkHerEn, if_neg (by decide),
    if_pos (List.all_eq_true.mpr fun c _ => hostdmaOk_mapped img destCtx handle hMax _ c)]
  rfl

/-- The device after fpspin_init. -/
def initDevice (destCtx : CtxId) (img : Image) (rs : FpspinRuleset) (pages : Nat) (handle : BitVec 64) : Device :=
  ⟨reconfigured (loadedRegs destCtx img handle ((BitVec.ofNat 64 (pages * 4096)).setWidth 32) probed.regs)
      (rulesetWrites [rs]),
    { (mappedDevice destCtx pages handle).app with inHerConf := false, inMeConf := false }⟩

theorem regs_initDevice (destCtx : CtxId) (img : Image) (rs : FpspinRuleset) (pages : Nat) (handle : BitVec 64) :
    (initDevice destCtx img rs pages handle).regs =
      reconfigured (loadedRegs destCtx img handle ((BitVec.ofNat 64 (pages * 4096)).setWidth 32) probed.regs)
        (rulesetWrites [rs]) := rfl

theorem fpspinInit_eq (destCtx : CtxId) (rs : FpspinRuleset) (handle : BitVec 64) {pages : Nat} (hPos : 0 < pages)
    (hMax : pages < 2 ^ 19) :
    fpspinInit probed destCtx img [rs] pages handle = some (initDevice destCtx img rs pages handle) := by
  have hArea : (mappedDevice destCtx pages handle).app.dmaAreas destCtx =
      ⟨handle, BitVec.ofNat 64 (pages * 4096), true, 1⟩ := Function.update_self ..
  rw [fpspinInit, if_neg (by omega), pspinMmap_hostdma destCtx handle hPos hMax, Option.bind_some, if_pos rfl,
    initContext]
  simp only [hArea, if_true]
  rw [run_fpspinLoad img destCtx handle hMax, Option.bind_some,
    fpspinProgMe_eq _ (show [rs].length ≤ 4 from Nat.le.step
    (Nat.le.step (Nat.le.step Nat.le.refl)))]
  rfl

/-- The writes of fpspin_unload while the match engine is off. -/
def bypassWrites (ctxId : CtxId) : List (Reg × BitVec 32) := fpspinSetMeRuleset ctxId fpspinRulesetBypass

theorem regs_pspinVmaClose (d : Device) (c : CtxId) : (pspinVmaClose d c).regs = d.regs := by
  rw [pspinVmaClose]
  split <;> rfl

theorem fpspinExit_eq (d : Device) (ctxId : CtxId) :
    ∃ d', fpspinExit d ctxId = some d' ∧
      d'.regs = reconfigured ((fetchOff ++ cycleReset).foldl iowrite32 d.regs) (bypassWrites ctxId) := by
  have hRules : ∀ w ∈ bypassWrites ctxId, w.1.OfRules := by
    intro w hw
    obtain ⟨f, k, rfl⟩ := mem_fpspinSetMeRuleset.mp hw
    trivial
  have hRun := run_reconfigure
    ⟨(fetchOff ++ cycleReset).foldl iowrite32 d.regs, { d.app with inReset := false }⟩ hRules
  refine ⟨pspinVmaClose ⟨reconfigured ((fetchOff ++ cycleReset).foldl iowrite32 d.regs) (bypassWrites ctxId),
    { d.app with inReset := false, inMeConf := false }⟩ ctxId, ?_, regs_pspinVmaClose _ ctxId⟩
  rw [fpspinExit, fpspinUnload, Trace.run_append, run_fetch_reset, Option.bind_some]
  exact congrArg (Option.map _) hRun

end Load

section Selection

variable {p : Params}

/-- The ruleset matches the frame in hardware, combined with AND as the mode registers say after reset. -/
def FpspinRuleset.matchedBy (rs : FpspinRuleset) (beats : List (Beat p)) : Bool :=
  rulesetMatched p ⟨fun _ => false, fun _ k => (rs.r k).inHardware⟩ (loadData (beats.take p.matcherBeats)) firstRuleset

theorem bypass_rulesetMatched {store : RuleStore} {matcher : Nat → BitVec p.dataWidth} {j : RulesetId}
    (hRule : ∀ k, store.rule j k = ruleFalse.inHardware) : rulesetMatched p store matcher j = false := by
  have hUnits : muMatched p store matcher j = fun _ => false := by
    funext k
    have hData : muData p store matcher j k = 0 := by
      rw [muData, hRule]
      change _ &&& bswap32 0 = 0
      rw [show bswap32 0 = 0 by decide]
      exact BitVec.and_zero
    rw [muMatched, hData, hRule]
    decide
  rw [rulesetMatched_eq, hUnits]
  cases store.mode j <;> rfl

theorem rulesetMatched_congr {store store' : RuleStore} {matcher : Nat → BitVec p.dataWidth} {j : RulesetId}
    (hMode : store.mode j = store'.mode j) (hRule : ∀ k, store.rule j k = store'.rule j k) :
    rulesetMatched p store matcher j = rulesetMatched p store' matcher j := by
  have hUnits : muMatched p store matcher j = muMatched p store' matcher j := by
    funext k
    unfold muMatched muData
    rw [hRule]
  rw [rulesetMatched_eq, rulesetMatched_eq, hMode, hUnits]

theorem judge_single {store : RuleStore} {rs : FpspinRuleset} (hMode : store.mode 0 = false)
    (hRule : ∀ k, store.rule 0 k = (rs.r k).inHardware)
    (hRest : ∀ j, j ≠ 0 → ∀ k, store.rule j k = ruleFalse.inHardware) (beats : List (Beat p)) :
    (judge store beats).matched = rs.matchedBy beats ∧
      (rs.matchedBy beats = true → (judge store beats).rulesetId = 0) := by
  have hZero : rulesetMatched p store (loadData (beats.take p.matcherBeats)) 0 = rs.matchedBy beats :=
    rulesetMatched_congr hMode hRule
  have hFirst : ∀ i, IsFirst (rulesetMatched p store (loadData (beats.take p.matcherBeats))) i →
      i = 0 ∧ rs.matchedBy beats = true := by
    rintro i ⟨hMatched, -⟩
    by_cases hi : i = 0
    · rw [hi, hZero] at hMatched
      exact ⟨hi, hMatched⟩
    · rw [bypass_rulesetMatched (hRest i hi)] at hMatched
      cases hMatched
  cases hBy : rs.matchedBy beats with
  | true =>
    rw [hBy] at hZero
    have hVerdict := (verdict_matched_iff store _ 0).mpr ⟨hZero, fun j hj => absurd hj (Fin.not_lt_zero j)⟩
    exact ⟨hVerdict.1, fun _ => hVerdict.2⟩
  | false =>
    refine ⟨(verdict_matched_eq_false store _).mpr fun i hi => ?_, Bool.noConfusion⟩
    rw [hBy] at hFirst
    exact Bool.false_ne_true (hFirst i hi).2

theorem rulesetOf_single {rs : FpspinRuleset} {j : RulesetId} (hj : j ≠ 0) :
    rulesetOf [rs] j = fpspinRulesetBypass :=
  rulesetOf_of_le (Nat.one_le_iff_ne_zero.mpr fun h => hj (Fin.ext h))

variable (destCtx : CtxId) (img : Image) (rs : FpspinRuleset) (pages : Nat) (handle : BitVec 64)

theorem meMode_initDevice (j : RulesetId) : (initDevice destCtx img rs pages handle).regs (.meMode j) = 0 := by
  rw [regs_initDevice, reconfigured_of_not_mem _ Reg.noConfusion fun w hw hReg => ?_,
    loadedRegs_of_rules _ _ _ (show Reg.OfRules (.meMode j) from trivial)]
  · rfl
  · obtain ⟨j', f', k', rfl⟩ := mem_rulesetWrites.mp hw
    cases hReg

theorem judge_initDevice (beats : List (Beat p)) :
    (judge (matchConf (initDevice destCtx img rs pages handle).regs).stored beats).matched = rs.matchedBy beats ∧
      (rs.matchedBy beats = true →
        (judge (matchConf (initDevice destCtx img rs pages handle).regs).stored beats).rulesetId = 0) := by
  rw [regs_initDevice, matchConf_reconfigured]
  apply judge_single
  · change (loadedRegs _ _ _ _ probed.regs (.meMode 0)).getLsbD 0 = false
    rw [loadedRegs_of_rules _ _ _ (show Reg.OfRules (.meMode 0) from trivial)]
    rfl
  · intro k
    rfl
  · intro j hj k
    change ((rulesetOf [rs] j).r k).inHardware = _
    rw [rulesetOf_single hj]
    rfl

theorem herConf_reconfigured (regs : RegFile) {ws : List (Reg × BitVec 32)} (hRules : ∀ w ∈ ws, w.1.OfRules) :
    herConf (reconfigured regs ws) = herConf regs := by
  have hSame : ∀ r, r ≠ .meValid → ¬ r.OfRules → reconfigured regs ws r = regs r := fun r hValid hOther =>
    reconfigured_of_not_mem regs hValid fun w hw hReg => hOther (hReg ▸ hRules w hw)
  have hValid := hSame .herValid Reg.noConfusion id
  have hEnabled := fun c => hSame (.ctxEnabled c) Reg.noConfusion id
  have hMeta := fun f c => hSame (.herMeta f c) Reg.noConfusion id
  unfold herConf herMetaOf
  simp only [hValid, hEnabled, hMeta]

theorem herConf_initDevice :
    herConf (initDevice destCtx img rs pages handle).regs =
      ⟨true, Function.update (fun _ => zeroMeta) destCtx
        (img.herMeta handle ((BitVec.ofNat 64 (pages * 4096)).setWidth 32)), fun c => decide (c = destCtx)⟩ := by
  rw [regs_initDevice, herConf_reconfigured _ (fun _ => ofRules_of_mem)]
  have hZero : ∀ f c, probed.regs (.herMeta f c) = 0 := fun _ _ => rfl
  have hCtx : herMetaOf (loadedRegs destCtx img handle ((BitVec.ofNat 64 (pages * 4096)).setWidth 32) probed.regs) =
      Function.update (fun _ => zeroMeta) destCtx
        (img.herMeta handle ((BitVec.ofNat 64 (pages * 4096)).setWidth 32)) := by
    funext c
    by_cases hc : c = destCtx
    · rw [hc, Function.update_self, herMetaOf_loadedRegs _ _ _ (fun f => hZero f destCtx)]
    · rw [Function.update_of_ne hc]
      simp only [herMetaOf, (loadedRegs_other _ _ _ hc).1, hZero]
      rfl
  have hEnabled : (fun c => (loadedRegs destCtx img handle ((BitVec.ofNat 64 (pages * 4096)).setWidth 32) probed.regs
      (.ctxEnabled c)).getLsbD 0) = fun c => decide (c = destCtx) := by
    funext c
    by_cases hc : c = destCtx
    · rw [hc, loadedRegs_ctxEnabled, decide_eq_true rfl]
      rfl
    · have hOff : probed.regs (.ctxEnabled c) = 0 := rfl
      rw [(loadedRegs_other _ _ _ hc).2, decide_eq_false hc, hOff]
      rfl
  rw [herConf, hCtx, hEnabled, loadedRegs_herValid]
  rfl

theorem meRule_bypassed (regs : RegFile) (f : RuleField) (j : RulesetId) (k : EntryId) :
    reconfigured regs (bypassWrites destCtx) (.meRule f j k) =
      if j.val = destCtx.val then ruleFalse.regValue f else regs (.meRule f j k) := by
  split_ifs with hj
  · obtain rfl : j = destCtx := Fin.ext hj
    refine reconfigured_of_mem regs Reg.noConfusion (mem_fpspinSetMeRuleset.mpr ⟨f, k, rfl⟩) ?_
    intro w hw hReg
    obtain ⟨f', k', rfl⟩ := mem_fpspinSetMeRuleset.mp hw
    cases hReg
    rfl
  · refine reconfigured_of_not_mem regs Reg.noConfusion fun w hw hReg => ?_
    obtain ⟨f', k', rfl⟩ := mem_fpspinSetMeRuleset.mp hw
    cases hReg
    exact hj rfl

theorem matchConf_exit {d : Device}
    (hRegs : d.regs = reconfigured
      ((fetchOff ++ cycleReset).foldl iowrite32 (initDevice destCtx img rs pages handle).regs) (bypassWrites destCtx)) :
    matchConf d.regs = ⟨true, fun _ => false,
      fun j k => (if j.val = destCtx.val then ruleFalse else (rulesetOf [rs] j).r k).inHardware⟩ := by
  have hMode : ∀ j, d.regs (.meMode j) = 0 := by
    intro j
    rw [hRegs, reconfigured_of_not_mem _ Reg.noConfusion fun w hw hReg => ?_,
      fetch_reset_of_ne _ fun i => Reg.noConfusion, meMode_initDevice]
    obtain ⟨f', k', rfl⟩ := mem_fpspinSetMeRuleset.mp hw
    cases hReg
  have hRule : ∀ f j k, d.regs (.meRule f j k) =
      if j.val = destCtx.val then ruleFalse.regValue f else ((rulesetOf [rs] j).r k).regValue f := by
    intro f j k
    rw [hRegs, meRule_bypassed, fetch_reset_of_ne _ fun i => Reg.noConfusion, regs_initDevice, meRule_reconfigured]
  have hValid : d.regs .meValid = 1 := by rw [hRegs, reconfigured, iowrite32, Function.update_self]
  have hRules : ∀ j k, (⟨d.regs (.meRule .idx j k), d.regs (.meRule .mask j k), d.regs (.meRule .start j k),
      d.regs (.meRule .stop j k)⟩ : Rule) =
        (if j.val = destCtx.val then ruleFalse else (rulesetOf [rs] j).r k).inHardware := by
    intro j k
    simp only [hRule]
    split_ifs <;> rfl
  unfold matchConf
  simp only [hMode, hValid, hRules]
  rfl

theorem judge_exit {d : Device}
    (hRegs : d.regs = reconfigured
      ((fetchOff ++ cycleReset).foldl iowrite32 (initDevice destCtx img rs pages handle).regs)
      (bypassWrites destCtx)) (beats : List (Beat p)) :
    (judge (matchConf d.regs).stored beats).matched = (decide (destCtx ≠ defaultCtxId) && rs.matchedBy beats) := by
  have hRest : ∀ j : RulesetId, j ≠ 0 → ∀ k,
      (if j.val = destCtx.val then ruleFalse else (rulesetOf [rs] j).r k).inHardware = ruleFalse.inHardware := by
    intro j hj k
    rw [rulesetOf_single hj]
    split_ifs <;> rfl
  have hStored : (matchConf d.regs).stored = ⟨fun _ => false,
      fun j k => (if j.val = destCtx.val then ruleFalse else (rulesetOf [rs] j).r k).inHardware⟩ := by
    rw [matchConf_exit destCtx img rs pages handle hRegs]
    rfl
  rw [hStored]
  by_cases hCtx : destCtx = defaultCtxId
  · subst hCtx
    have hRule : ∀ k, (if (0 : RulesetId).val = defaultCtxId.val then ruleFalse
        else (rulesetOf [rs] 0).r k).inHardware = (fpspinRulesetBypass.r k).inHardware := fun _ => rfl
    rw [(judge_single rfl hRule hRest beats).1, decide_eq_false (fun h => h rfl), Bool.false_and]
    exact bypass_rulesetMatched fun _ => rfl
  · have hNe : (0 : RulesetId).val ≠ destCtx.val := fun h => hCtx (Fin.ext h.symm)
    rw [decide_eq_true hCtx, Bool.true_and]
    refine (judge_single rfl (fun k => ?_) hRest beats).1
    change (if (0 : RulesetId).val = destCtx.val then ruleFalse else rs.r k).inHardware = _
    rw [if_neg hNe]

theorem step_initDevice (store : Store) :
    store.step (herConf (initDevice destCtx img rs pages handle).regs) =
      ⟨Function.update (fun _ => zeroMeta) destCtx
        (img.herMeta handle ((BitVec.ofNat 64 (pages * 4096)).setWidth 32)), fun c => decide (c = destCtx)⟩ := by
  rw [herConf_initDevice]
  rfl

/-- The context that serves a matching frame is the default one, also when it is not set up. -/
theorem served_initDevice {beats : List (Beat p)} (hMatched : rs.matchedBy beats = true) (store : Store)
    {addrWidth lenWidth : Nat} {gen : Completion addrWidth lenWidth p.tagWidth}
    (hTag : gen.tag = (judge (matchConf (initDevice destCtx img rs pages handle).regs).stored beats).tag) :
    (her p.msgIdWidth (store.step (herConf (initDevice destCtx img rs pages handle).regs)) gen).herMeta =
      if destCtx = defaultCtxId then img.herMeta handle ((BitVec.ofNat 64 (pages * 4096)).setWidth 32)
      else zeroMeta := by
  have hZero := (judge_initDevice destCtx img rs pages handle beats).2 hMatched
  have hDecode := IngressDatapath.decodeCtxId_tag
    (judge (matchConf (initDevice destCtx img rs pages handle).regs).stored beats) rfl
  rw [BitVec.setWidth_eq, hZero, ← hTag] at hDecode
  have hSelect : ∀ s : Store, s.select gen.tag = defaultCtxId := by
    intro s
    rw [Store.select, hDecode]
    exact ite_self _
  change Store.ctx _ (Store.select _ gen.tag) = _
  rw [hSelect, step_initDevice]
  split_ifs with hCtx
  · change Function.update (fun _ => zeroMeta) destCtx _ defaultCtxId = _
    rw [hCtx, Function.update_self]
  · change Function.update (fun _ => zeroMeta) destCtx _ defaultCtxId = _
    rw [Function.update_of_ne (Ne.symm hCtx)]

/-- A frame that matches the ruleset is served by the context, and after the exit no frame is sent to PsPIN. -/
structure ContextSelected (p : Params) (rs : FpspinRuleset) (d₁ d₂ : Device) (herMeta : HerMeta) : Prop where
  sent : ∀ beats : List (Beat p), rs.matchedBy beats = true →
    (judge (matchConf d₁.regs).stored beats).matched = true
  ready : ∀ beats : List (Beat p), rs.matchedBy beats = true →
    ∀ store : Store, genReady (store.step (herConf d₁.regs)) true = true
  served : ∀ (beats : List (Beat p)) (addrWidth lenWidth : Nat) (gen : Completion addrWidth lenWidth p.tagWidth)
    (store : Store), rs.matchedBy beats = true → gen.tag = (judge (matchConf d₁.regs).stored beats).tag →
      (her p.msgIdWidth (store.step (herConf d₁.regs)) gen).herMeta = herMeta
  exited : ∀ beats : List (Beat p), (judge (matchConf d₂.regs).stored beats).matched = false

def image : Image := ⟨some 0x1d001000, some 0x1d002000, some 0x1d003000, 0x1c0c0000, 0x100⟩

def contextOne : CtxId := ⟨1, Nat.one_lt_succ_succ 2⟩

end Selection

end FPsPIN.Loader
