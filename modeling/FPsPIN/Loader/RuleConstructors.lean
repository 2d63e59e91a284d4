import FPsPIN.Lib.Headers
import FPsPIN.Loader.Rulesets

/-!
# The rule constructors

Each macro makes an equation about one header field, at the offset the field
has behind an IP header of 20 bytes. All words go through one byte swap on
their way to the match engine, which reads the frame with one as well.
FPSPIN_RULE_UDP_SPORT swaps the port once more, so its rule is about the port
with its bytes exchanged.
-/

namespace FPsPIN.Loader

open FPsPIN.PktMatch FPsPIN.Bytes FPsPIN.Headers FPsPIN.Driver

section Equations

variable (frame : Memory)

/-- An equation about a field of n bytes that ends k bytes before the end of its word. -/
theorem FpspinRule.holdsReversed_field {ru : FpspinRule} {k n : Nat} (num : BitVec (8 * n)) (hField : k + n ≤ 4)
    (hMask : ru.mask = (BitVec.allOnes (8 * n)).setWidth 32 <<< (8 * k))
    (hStart : ru.start = num.setWidth 32 <<< (8 * k)) (hStop : ru.stop = ru.start) :
    ru.holdsReversed frame = true ↔ loadBE n frame (4 * ru.idx.toNat + (4 - k - n)) = num := by
  rw [holdsReversed_iff_eq hStop.symm, value, hMask, hStart, and_field_eq_iff _ _ (by omega)]
  exact Eq.congr_left (extract_loadBE frame _ hField)

theorem ruleIp_field : ruleIp.holdsReversed frame = true ↔ etherType frame = 0x0800 :=
  FpspinRule.holdsReversed_field (k := 2) (n := 2) frame 0x0800 (by decide) (by decide) (by decide) rfl

theorem ruleIpProto_field (num : BitVec 8) :
    (ruleIpProto (num.setWidth 32)).holdsReversed frame = true ↔ ipProtocol frame = num := by
  rw [ipProtocol, ← loadBE_one frame 23]
  exact FpspinRule.holdsReversed_field (k := 0) (n := 1) frame num (by decide) rfl
    (BitVec.shiftLeft_zero _).symm rfl

theorem ruleUdpSport_field (num : BitVec 16) :
    (ruleUdpSport (num.setWidth 32)).holdsReversed frame = true ↔ loadBE 2 frame 34 = bswap16 num := by
  have hNum : (num.setWidth 32).setWidth 16 = num := BitVec.setWidth_setWidth_of_le num (by decide)
  refine FpspinRule.holdsReversed_field (k := 0) (n := 2) frame (bswap16 num) (by decide) rfl ?_ rfl
  rw [ruleUdpSport, hNum]
  exact (BitVec.shiftLeft_zero _).symm

theorem ruleUdpDport_field (num : BitVec 16) :
    (ruleUdpDport (num.setWidth 32)).holdsReversed frame = true ↔ loadBE 2 frame 36 = num :=
  FpspinRule.holdsReversed_field (k := 2) (n := 2) frame num (by decide) rfl rfl rfl

end Equations

/-- A use of a constructor, with its argument in the range of the field. -/
inductive RuleMacro where
  | ip
  | ipProto (num : BitVec 8)
  | udpSport (num : BitVec 16)
  | udpDport (num : BitVec 16)

namespace RuleMacro

def rule : RuleMacro → FpspinRule
  | ip => ruleIp
  | ipProto num => ruleIpProto (num.setWidth 32)
  | udpSport num => ruleUdpSport (num.setWidth 32)
  | udpDport num => ruleUdpDport (num.setWidth 32)

/-- The frame has the named field with the given value. -/
def Selects (frame : Memory) : RuleMacro → Prop
  | ip => etherType frame = 0x0800
  | ipProto num => ipProtocol frame = num
  | udpSport num => udpSrcPort frame = num
  | udpDport num => udpDstPort frame = num

/-- A source port is not compared with one that differs from it by the order of its bytes. -/
def Unswapped (frame : Memory) : RuleMacro → Prop
  | udpSport num => bswap16 num = num ∨ udpSrcPort frame ≠ num ∧ udpSrcPort frame ≠ bswap16 num
  | _ => True

theorem idx_lt (m : RuleMacro) (p : Params) : m.rule.idx.toNat < p.matcherWidth / 32 := by
  have hSmall : m.rule.idx.toNat < 12 := by
    cases m <;> exact of_decide_eq_true rfl
  exact hSmall.trans_le (twelve_le_matcherWords p)

/-- Which frames the rule of a constructor accepts. -/
theorem holdsReversed_iff {frame : Memory} (m : RuleMacro) (hIhl : ihl frame = 5) :
    (m.rule.holdsReversed frame = true ↔ m.Selects frame) ↔ m.Unswapped frame := by
  cases m with
  | ip => exact iff_of_true (ruleIp_field frame) trivial
  | ipProto num => exact iff_of_true (ruleIpProto_field frame num) trivial
  | udpDport num =>
    have hRule : (udpDport num).rule.holdsReversed frame = true ↔ (udpDport num).Selects frame := by
      rw [rule, ruleUdpDport_field, Selects, udpDstPort, udpAt_of_ihl hIhl]
    exact iff_of_true hRule trivial
  | udpSport num =>
    rw [rule, ruleUdpSport_field, Selects, Unswapped, udpSrcPort, udpAt_of_ihl hIhl]
    constructor
    · intro hIff
      by_cases hPort : loadBE 2 frame 34 = num
      · exact .inl ((hIff.mpr hPort).symm.trans hPort)
      · exact .inr ⟨hPort, fun hSwapped => hPort (hIff.mp hSwapped)⟩
    · rintro (hSame | ⟨hPort, hSwapped⟩)
      · rw [hSame]
      · exact iff_of_false hSwapped hPort

end RuleMacro

section Registers

variable {p : Params}

theorem meRule_setMeRule (regs : RegFile) (j : RulesetId) (k : EntryId) (ru : FpspinRule) (f : RuleField) :
    reconfigured regs (setMeRule j k ru) (.meRule f j k) = ru.regValue f := by
  apply reconfigured_of_mem regs Reg.noConfusion (mem_setMeRule.mpr ⟨f, rfl⟩)
  intro w hw hReg
  obtain ⟨f', rfl⟩ := mem_setMeRule.mp hw
  cases hReg
  rfl

theorem stored_setMeRule (regs : RegFile) (j : RulesetId) (k : EntryId) (ru : FpspinRule) :
    (matchConf (reconfigured regs (setMeRule j k ru))).stored.rule j k = ru.inHardware := by
  have hValid : (matchConf (reconfigured regs (setMeRule j k ru))).valid = true := by
    rw [matchConf, reconfigured, iowrite32, Function.update_self]
    rfl
  rw [MatchConf.stored, if_pos hValid]
  simp only [matchConf, meRule_setMeRule]
  rfl

/-- The rule of a constructor, written while the match engine is switched off, holds for the frames that have
the named field exactly if the bytes of a source port do not matter. -/
theorem ruleMacro_selects_iff (d : Device) (j : RulesetId) (k : EntryId) (m : RuleMacro) :
    ∃ d', Trace.run writeReg d (meOff ++ setMeRule j k m.rule ++ meOn) = some d' ∧
      ∀ beats : List (Beat p), ihl (frameBytes beats) = 5 →
        ((muMatched p (matchConf d'.regs).stored (loadData (beats.take p.matcherBeats)) j k = true ↔
            m.Selects (frameBytes beats)) ↔ m.Unswapped (frameBytes beats)) := by
  refine ⟨_, run_reconfigure d fun w hw => ?_, fun beats hIhl => ?_⟩
  · obtain ⟨f, rfl⟩ := mem_setMeRule.mp hw
    trivial
  · rw [muMatched_inHardware (stored_setMeRule d.regs j k m.rule) (m.idx_lt p)]
    exact m.holdsReversed_iff hIhl

def fromPort9330 : List (Beat deployed) := [word (0x0008 <<< 96 + 0x45 <<< 112 + 0x7224 <<< 272) true]

/-- The rule for packets from port 9330 does not hold for one. -/
theorem ruleUdpSport_misses :
    ihl (frameBytes fromPort9330) = 5 ∧ (RuleMacro.udpSport 9330).Selects (frameBytes fromPort9330) ∧
      ∃ d', Trace.run writeReg probed (meOff ++ setMeRule 0 0 (RuleMacro.udpSport 9330).rule ++ meOn) = some d' ∧
        muMatched deployed (matchConf d'.regs).stored (loadData (fromPort9330.take deployed.matcherBeats)) 0 0 =
          false :=
  ⟨by decide +kernel, by
    have hPort : udpSrcPort (frameBytes fromPort9330) = 9330 := by decide +kernel
    exact hPort, _, rfl, by decide +kernel⟩

theorem ruleMacro_selects_iff_fromPort9330 :
    ihl (frameBytes fromPort9330) = 5 ∧
      ∃ d', Trace.run writeReg probed (meOff ++ setMeRule 0 0 RuleMacro.ip.rule ++ meOn) = some d' ∧
        ((muMatched deployed (matchConf d'.regs).stored
          (loadData (fromPort9330.take deployed.matcherBeats)) 0 0 = true ↔
            RuleMacro.ip.Selects (frameBytes fromPort9330)) ↔ RuleMacro.ip.Unswapped (frameBytes fromPort9330)) :=
  have hIhl : ihl (frameBytes fromPort9330) = 5 := by decide +kernel
  have ⟨d', hRun, hIff⟩ := ruleMacro_selects_iff (p := deployed) probed 0 0 .ip
  ⟨hIhl, d', hRun, hIff fromPort9330 hIhl⟩

end Registers

end FPsPIN.Loader
