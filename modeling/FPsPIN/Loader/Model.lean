import FPsPIN.Driver.HostMemory

/-!
# Programming the match engine

The part of the host library that writes the rule registers through sysfs.
Bounds and masks are written in network order, word indices are not, and the
mode registers are not written at all. A store that the driver refuses ends
the program.
-/

namespace FPsPIN.Loader

open FPsPIN.PktMatch FPsPIN.HerGen FPsPIN.Bytes FPsPIN.Driver

/-- Struct fpspin_rule, with its last field under another name. -/
structure FpspinRule where
  idx : BitVec 32
  mask : BitVec 32
  start : BitVec 32
  stop : BitVec 32

inductive Mode where
  | modeAnd
  | modeOr
deriving DecidableEq

structure FpspinRuleset where
  r : EntryId → FpspinRule
  mode : Mode

section Rules

def ruleFalse : FpspinRule := ⟨0, 0, 1, 0⟩

def ruleEmpty : FpspinRule := ⟨0, 0, 0, 0⟩

def ruleIp : FpspinRule := ⟨3, 0xffff0000, 0x08000000, 0x08000000⟩

def ruleIpProto (num : BitVec 32) : FpspinRule := ⟨5, 0xff, num, num⟩

/-- The macro swaps the bytes of the port, and set_me_rule swaps them again. -/
def ruleUdpSport (num : BitVec 32) : FpspinRule :=
  ⟨8, 0xffff, (bswap16 (num.setWidth 16)).setWidth 32, (bswap16 (num.setWidth 16)).setWidth 32⟩

def ruleUdpDport (num : BitVec 32) : FpspinRule := ⟨9, 0xffff0000, num <<< 16, num <<< 16⟩

def fpspinRulesetBypass : FpspinRuleset := ⟨fun _ => ruleFalse, .modeAnd⟩

/-- The EOM rule looks at the first bit of the flags in the SLMP header. -/
def fpspinRulesetSlmp : FpspinRuleset where
  r
    | 0 => ruleIp
    | 1 => ruleIpProto 17
    | 2 => ruleUdpDport 9330
    | 3 => ⟨10, 0x8000, 0x8000, 0x8000⟩
  mode := .modeAnd

end Rules

section Registers

/-- Function write_reg: no result where the program exits. -/
def writeReg (d : Device) (w : Reg × BitVec 32) : Option Device :=
  if rejects d w.1 w.2 then none else some (pspinRegStore d w.1 w.2)

def meOn : List (Reg × BitVec 32) := [(.meValid, 1)]

def meOff : List (Reg × BitVec 32) := [(.meValid, 0)]

def setMeRule (ctxId : RulesetId) (rid : EntryId) (ru : FpspinRule) : List (Reg × BitVec 32) :=
  [(.meRule .idx ctxId rid, ru.idx), (.meRule .mask ctxId rid, bswap32 ru.mask),
    (.meRule .start ctxId rid, bswap32 ru.start), (.meRule .stop ctxId rid, bswap32 ru.stop)]

def fpspinSetMeRuleset (ctxId : RulesetId) (rs : FpspinRuleset) : List (Reg × BitVec 32) :=
  (List.finRange 4).flatMap fun i => setMeRule ctxId i (rs.r i)

/-- Ruleset i of an array, the bypass ruleset behind its end. -/
def rulesetOf (rs : List FpspinRuleset) (i : RulesetId) : FpspinRuleset := rs.getD i fpspinRulesetBypass

/-- Function fpspin_prog_me. -/
def fpspinProgMe (rs : List FpspinRuleset) (d : Device) : Option Device :=
  if rs.length > 4 then none
  else Trace.run writeReg d
    (meOff ++ ((List.finRange 4).flatMap fun i => fpspinSetMeRuleset i (rulesetOf rs i)) ++ meOn)

end Registers

section Contexts

/-- What the loader reads from an image: the handler symbols it finds and the section for handler data. -/
structure Image where
  hh : Option (BitVec 32)
  ph : Option (BitVec 32)
  th : Option (BitVec 32)
  l2Daddr : BitVec 32
  l2Dsize : BitVec 32

def cycleReset : List (Reg × BitVec 32) := [(.clReset, 1), (.clReset, 0)]

def fetchOn : List (Reg × BitVec 32) := [(.clFetch, 3)]

def fetchOff : List (Reg × BitVec 32) := [(.clFetch, 0)]

def herOn : List (Reg × BitVec 32) := [(.herValid, 1)]

def herOff : List (Reg × BitVec 32) := [(.herValid, 0)]

/-- Function set_handler for the registers of one handler. -/
def setHandler (addr size : MetaField) (ctxId : CtxId) (haddr : Option (BitVec 32)) : List (Reg × BitVec 32) :=
  [(.herMeta addr ctxId, haddr.getD 0), (.herMeta size ctxId, if haddr.isSome then 4096 else 0)]

/-- Function set_handler_mem, with L2_END. -/
def setHandlerMem (img : Image) (ctxId : CtxId) : List (Reg × BitVec 32) :=
  [(.herMeta .handlerMemAddr ctxId, img.l2Daddr + img.l2Dsize),
    (.herMeta .handlerMemSize ctxId, 0x1c100000 - img.l2Daddr)]

/-- The context registers that fpspin_load writes while the HER generator is off. -/
def contextWrites (ctxId : CtxId) (img : Image) (hostmemPtr : BitVec 64) (hostmemSize : BitVec 32) :
    List (Reg × BitVec 32) :=
  setHandler .hhAddr .hhSize ctxId img.hh ++ setHandler .phAddr .phSize ctxId img.ph ++
    setHandler .thAddr .thSize ctxId img.th ++ setHandlerMem img ctxId ++
    [(.herMeta .hostMemAddr1 ctxId, (hostmemPtr >>> 32).setWidth 32),
      (.herMeta .hostMemAddr0 ctxId, hostmemPtr.setWidth 32),
      (.herMeta .hostMemSize ctxId, hostmemSize)] ++
    -- scratchpads 0 and 1
    (List.finRange 2).map (fun i => (.herMeta (.scratchpadSize (i.castAdd 2)) ctxId, 4096)) ++
    [(.ctxEnabled ctxId, 1)]

theorem contextWrites_eq (ctxId : CtxId) (img : Image) (hostmemPtr : BitVec 64) (hostmemSize : BitVec 32) :
    contextWrites ctxId img hostmemPtr hostmemSize =
      setHandler .hhAddr .hhSize ctxId img.hh ++ setHandler .phAddr .phSize ctxId img.ph ++
        setHandler .thAddr .thSize ctxId img.th ++ setHandlerMem img ctxId ++
        [(.herMeta .hostMemAddr1 ctxId, (hostmemPtr >>> 32).setWidth 32),
          (.herMeta .hostMemAddr0 ctxId, hostmemPtr.setWidth 32),
          (.herMeta .hostMemSize ctxId, hostmemSize), (.herMeta (.scratchpadSize 0) ctxId, 4096),
          (.herMeta (.scratchpadSize 1) ctxId, 4096), (.ctxEnabled ctxId, 1)] := by
  simp [contextWrites, List.finRange_succ]

/-- The register writes of fpspin_load. -/
def fpspinLoad (ctxId : CtxId) (img : Image) (hostmemPtr : BitVec 64) (hostmemSize : BitVec 32) :
    List (Reg × BitVec 32) :=
  (fetchOff ++ cycleReset ++ fetchOn) ++ (herOff ++ contextWrites ctxId img hostmemPtr hostmemSize ++ herOn)

/-- The register writes of fpspin_unload. -/
def fpspinUnload (ctxId : CtxId) : List (Reg × BitVec 32) :=
  (fetchOff ++ cycleReset) ++ (meOff ++ fpspinSetMeRuleset ctxId fpspinRulesetBypass ++ meOn)

/-- The mapping that fpspin_init asks for, granted by the kernel at a DMA address. -/
def hostdmaRequest (destCtx : CtxId) (hostdmaPages : Nat) (dmaHandle : BitVec 64) : MmapRequest where
  len := BitVec.ofNat 64 (hostdmaPages * 4096)
  pgoff := BitVec.ofNat 64 (destCtx * hostdmaPages)
  shared := true
  mapData := true
  dmaHandle := some dmaHandle
  mapped := true

/-- The part of fpspin_init after the mapping: the query must find the area enabled. -/
def initContext (d : Device) (destCtx : CtxId) (img : Image) (rs : List FpspinRuleset) : Option Device :=
  let area := d.app.dmaAreas destCtx
  if area.enabled then
    (Trace.run writeReg d (fpspinLoad destCtx img area.dmaHandle (area.dmaSize.setWidth 32))).bind (fpspinProgMe rs)
  else none

/-- Function fpspin_init up to the reading of the host flags. There is no result where it fails. -/
def fpspinInit (d : Device) (destCtx : CtxId) (img : Image) (rs : List FpspinRuleset) (hostdmaPages : Nat)
    (dmaHandle : BitVec 64) : Option Device :=
  if hostdmaPages = 0 then initContext d destCtx img rs
  else (pspinMmap d (hostdmaRequest destCtx hostdmaPages dmaHandle)).bind fun result =>
    if result.1 then initContext result.2 destCtx img rs else none

/-- Function fpspin_exit: the mapping goes away in the end. -/
def fpspinExit (d : Device) (ctxId : CtxId) : Option Device :=
  (Trace.run writeReg d (fpspinUnload ctxId)).map fun d => pspinVmaClose d ctxId

end Contexts

section Effects

variable {d : Device}

/-- The value set_me_rule writes for a field. -/
def FpspinRule.regValue (ru : FpspinRule) : RuleField → BitVec 32
  | .idx => ru.idx
  | .mask => bswap32 ru.mask
  | .start => bswap32 ru.start
  | .stop => bswap32 ru.stop

theorem mem_setMeRule {j : RulesetId} {k : EntryId} {ru : FpspinRule} {w : Reg × BitVec 32} :
    w ∈ setMeRule j k ru ↔ ∃ f, w = (.meRule f j k, ru.regValue f) := by
  constructor
  · intro hw
    simp only [setMeRule, List.mem_cons, List.not_mem_nil, or_false] at hw
    obtain h | h | h | h := hw
    · exact ⟨.idx, h⟩
    · exact ⟨.mask, h⟩
    · exact ⟨.start, h⟩
    · exact ⟨.stop, h⟩
  · rintro ⟨f, rfl⟩
    cases f <;> simp [setMeRule, FpspinRule.regValue]

theorem mem_fpspinSetMeRuleset {j : RulesetId} {rs : FpspinRuleset} {w : Reg × BitVec 32} :
    w ∈ fpspinSetMeRuleset j rs ↔ ∃ f k, w = (.meRule f j k, (rs.r k).regValue f) := by
  simp only [fpspinSetMeRuleset, List.mem_flatMap, List.mem_finRange, true_and, mem_setMeRule]
  exact exists_comm

theorem foldl_iowrite32_of_mem {ws : List (Reg × BitVec 32)} {r : Reg} {v : BitVec 32} (hMem : (r, v) ∈ ws)
    (hOnly : ∀ w ∈ ws, w.1 = r → w.2 = v) (regs : RegFile) : ws.foldl iowrite32 regs r = v := by
  induction ws using List.reverseRecOn with
  | nil => cases hMem
  | append_singleton ws w ih =>
    rw [List.foldl_append, List.foldl_cons, List.foldl_nil, iowrite32]
    by_cases hr : w.1 = r
    · rw [← hr, Function.update_self]
      exact hOnly w (by simp) hr
    · rw [Function.update_of_ne (Ne.symm hr)]
      refine ih ?_ (fun w' hw' => hOnly w' (List.mem_append_left _ hw'))
      obtain h | h := List.mem_append.mp hMem
      · exact h
      · exact absurd (congrArg Prod.fst (List.mem_singleton.mp h)).symm hr

theorem foldl_iowrite32_of_not_mem {ws : List (Reg × BitVec 32)} {r : Reg} (h : ∀ w ∈ ws, w.1 ≠ r)
    (regs : RegFile) :
    ws.foldl iowrite32 regs r = regs r := by
  induction ws generalizing regs with
  | nil => rfl
  | cons w ws ih =>
    rw [List.foldl_cons, ih (fun w' hw' => h w' (List.mem_cons_of_mem _ hw')), iowrite32]
    exact Function.update_of_ne (h w (List.mem_cons_self ..)).symm ..

theorem writeReg_of_check {w : Reg × BitVec 32} {app : App} (hCheck : checkFunc d w.1 w.2 = (true, app)) :
    writeReg d w = some ⟨iowrite32 d.regs w, app⟩ := by
  simp [writeReg, rejects, pspinRegStore, hCheck, iowrite32]

theorem run_writes {app : App} {ws : List (Reg × BitVec 32)}
    (hChecks : ∀ w ∈ ws, ∀ regs, checkFunc ⟨regs, app⟩ w.1 w.2 = (true, app)) (regs : RegFile) :
    Trace.run writeReg ⟨regs, app⟩ ws = some ⟨ws.foldl iowrite32 regs, app⟩ := by
  induction ws generalizing regs with
  | nil => rfl
  | cons w ws ih =>
    rw [Trace.run_cons]
    exact ⟨_, writeReg_of_check (hChecks w (List.mem_cons_self ..) regs),
      ih (fun w' hw' => hChecks w' (List.mem_cons_of_mem _ hw')) _⟩

theorem run_ruleWrites (hConf : d.app.inMeConf = true) {ws : List (Reg × BitVec 32)}
    (hRules : ∀ w ∈ ws, w.1.OfRules) :
    Trace.run writeReg d ws = some ⟨ws.foldl iowrite32 d.regs, d.app⟩ := by
  apply run_writes
  intro w hw regs
  have hW := hRules w hw
  cases hReg : w.1 <;> rw [hReg] at hW <;> first
    | exact hW.elim
    | rw [checkFunc, checkMeInConf, hConf]

theorem run_contextWrites (hConf : d.app.inHerConf = true) {ws : List (Reg × BitVec 32)}
    (hContexts : ∀ w ∈ ws, w.1.OfContexts) :
    Trace.run writeReg d ws = some ⟨ws.foldl iowrite32 d.regs, d.app⟩ := by
  apply run_writes
  intro w hw regs
  have hW := hContexts w hw
  cases hReg : w.1 <;> rw [hReg] at hW <;> first
    | exact hW.elim
    | rw [checkFunc, checkHerInConf, hConf]

/-- The registers after rule writes between switching the match engine off and on. -/
def reconfigured (regs : RegFile) (ws : List (Reg × BitVec 32)) : RegFile :=
  iowrite32 (ws.foldl iowrite32 (iowrite32 regs (.meValid, 0))) (.meValid, 1)

theorem run_reconfigure (d : Device) {ws : List (Reg × BitVec 32)} (hRules : ∀ w ∈ ws, w.1.OfRules) :
    Trace.run writeReg d (meOff ++ ws ++ meOn) =
      some ⟨reconfigured d.regs ws, { d.app with inMeConf := false }⟩ := by
  have hOff : Trace.run writeReg d meOff = some ⟨iowrite32 d.regs (.meValid, 0), { d.app with inMeConf := true }⟩ :=
    Trace.run_cons.mpr ⟨_, writeReg_of_check rfl, rfl⟩
  rw [Trace.run_append, Trace.run_append, hOff, Option.bind_some, run_ruleWrites rfl hRules, Option.bind_some]
  exact Trace.run_cons.mpr ⟨_, writeReg_of_check rfl, rfl⟩

theorem reconfigured_of_mem {ws : List (Reg × BitVec 32)} {r : Reg} {v : BitVec 32} (regs : RegFile)
    (hValid : r ≠ .meValid) (hMem : (r, v) ∈ ws) (hOnly : ∀ w ∈ ws, w.1 = r → w.2 = v) :
    reconfigured regs ws r = v := by
  rw [reconfigured, iowrite32, Function.update_of_ne hValid]
  exact foldl_iowrite32_of_mem hMem hOnly _

theorem reconfigured_of_not_mem {ws : List (Reg × BitVec 32)} {r : Reg} (regs : RegFile) (hValid : r ≠ .meValid)
    (h : ∀ w ∈ ws, w.1 ≠ r) : reconfigured regs ws r = regs r := by
  rw [reconfigured, iowrite32, Function.update_of_ne hValid, foldl_iowrite32_of_not_mem h, iowrite32,
    Function.update_of_ne hValid]

/-- A rule as the match engine gets it. -/
def FpspinRule.inHardware (ru : FpspinRule) : Rule := ⟨ru.idx, bswap32 ru.mask, bswap32 ru.start, bswap32 ru.stop⟩

/-- The writes of fpspin_prog_me between switching the match engine off and on. -/
def rulesetWrites (rs : List FpspinRuleset) : List (Reg × BitVec 32) :=
  (List.finRange 4).flatMap fun i => fpspinSetMeRuleset i (rulesetOf rs i)

theorem mem_rulesetWrites {rs : List FpspinRuleset} {w : Reg × BitVec 32} :
    w ∈ rulesetWrites rs ↔ ∃ j f k, w = (.meRule f j k, ((rulesetOf rs j).r k).regValue f) := by
  simp [rulesetWrites, List.mem_flatMap, mem_fpspinSetMeRuleset]

theorem ofRules_of_mem {rs : List FpspinRuleset} {w : Reg × BitVec 32} (hw : w ∈ rulesetWrites rs) :
    w.1.OfRules := by
  obtain ⟨j, f, k, rfl⟩ := mem_rulesetWrites.mp hw
  trivial

theorem fpspinProgMe_eq (d : Device) {rs : List FpspinRuleset} (hLen : rs.length ≤ 4) :
    fpspinProgMe rs d = some ⟨reconfigured d.regs (rulesetWrites rs), { d.app with inMeConf := false }⟩ := by
  rw [fpspinProgMe, if_neg (by omega)]
  exact run_reconfigure d fun _ => ofRules_of_mem

theorem meRule_reconfigured (regs : RegFile) (rs : List FpspinRuleset) (f : RuleField) (j : RulesetId) (k : EntryId) :
    reconfigured regs (rulesetWrites rs) (.meRule f j k) = ((rulesetOf rs j).r k).regValue f := by
  apply reconfigured_of_mem regs Reg.noConfusion (mem_rulesetWrites.mpr ⟨j, f, k, rfl⟩)
  intro w hw hReg
  obtain ⟨j', f', k', rfl⟩ := mem_rulesetWrites.mp hw
  cases hReg
  rfl

theorem matchConf_reconfigured (regs : RegFile) (rs : List FpspinRuleset) :
    matchConf (reconfigured regs (rulesetWrites rs)) =
      ⟨true, fun j => (regs (.meMode j)).getLsbD 0, fun j k => ((rulesetOf rs j).r k).inHardware⟩ := by
  have hMode : ∀ j, reconfigured regs (rulesetWrites rs) (.meMode j) = regs (.meMode j) := fun j => by
    refine reconfigured_of_not_mem regs Reg.noConfusion fun w hw => ?_
    obtain ⟨j', f', k', rfl⟩ := mem_rulesetWrites.mp hw
    exact Reg.noConfusion
  have hValid : reconfigured regs (rulesetWrites rs) .meValid = 1 := by
    rw [reconfigured, iowrite32, Function.update_self]
  simp only [matchConf, hMode, hValid, meRule_reconfigured]
  rfl

end Effects

end FPsPIN.Loader
