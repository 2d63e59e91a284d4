import FPsPIN.Ingress.Pairing
import FPsPIN.Loader.RuleConstructors

/-!
# Classification of SLMP frames

All rules of the SLMP ruleset are equations, so the byte order does not
matter, and its mode is the one that the mode registers have after reset. The
tag carries the EOM bit and the message id to the HER generator. The message
id is read by the hardware as a little-endian word.
-/

namespace FPsPIN.Loader

open FPsPIN.PktMatch FPsPIN.Bytes FPsPIN.PriorityEncoder FPsPIN.Driver FPsPIN.HerGen

/-- An IPv4 frame with protocol UDP and destination port 9330. -/
def IsSlmp (frame : Memory) : Prop := loadBE 2 frame 12 = 0x0800 ∧ frame 23 = 17 ∧ loadBE 2 frame 36 = 9330

section Rules

variable (frame : Memory)

theorem ruleIp_holds : ruleIp.holds frame = true ↔ loadBE 2 frame 12 = 0x0800 := by
  rw [FpspinRule.holds_eq_holdsReversed rfl]
  exact ruleIp_field frame

theorem ruleIpProto_holds : (ruleIpProto 17).holds frame = true ↔ frame 23 = 17 := by
  rw [FpspinRule.holds_eq_holdsReversed rfl]
  exact ruleIpProto_field frame 17

theorem ruleUdpDport_holds : (ruleUdpDport 9330).holds frame = true ↔ loadBE 2 frame 36 = 9330 := by
  rw [FpspinRule.holds_eq_holdsReversed rfl]
  exact ruleUdpDport_field frame 9330

theorem slmpEom_holds : (fpspinRulesetSlmp.r 3).holds frame = (frame 42).getLsbD 7 := by
  have hMask : (fpspinRulesetSlmp.r 3).mask = (BitVec.allOnes 1).setWidth 32 <<< 15 := by decide
  have hStart : (fpspinRulesetSlmp.r 3).start = (1#1).setWidth 32 <<< 15 := by decide
  have hBit : (loadBE 4 frame 40).getLsbD 15 = (frame 42).getLsbD 7 := getLsbD_loadBE (n := 4) frame 40 (by decide)
  rw [Bool.eq_iff_iff, FpspinRule.holds_iff_eq rfl, FpspinRule.value, hMask, hStart,
    and_field_eq_iff _ _ (by decide), ← hBit]
  exact extract_one_eq_iff _ _

theorem slmp_accepts : fpspinRulesetSlmp.accepts frame = true ↔ IsSlmp frame := by
  have hEntries : fpspinRulesetSlmp.accepts frame =
      (ruleIp.holds frame && ((ruleIpProto 17).holds frame && ((ruleUdpDport 9330).holds frame && true))) := rfl
  rw [hEntries, Bool.and_true, Bool.and_eq_true, Bool.and_eq_true, ruleIp_holds, ruleIpProto_holds,
    ruleUdpDport_holds, IsSlmp]

end Rules

variable {p : Params}

theorem slmp_indices (p : Params) :
    ∀ ruleset ∈ [fpspinRulesetSlmp], ∀ k, (ruleset.r k).idx.toNat < p.matcherWidth / 32 := by
  intro ruleset hMem k
  rw [List.mem_singleton.mp hMem]
  have hSmall : ∀ k, (fpspinRulesetSlmp.r k).idx.toNat < 12 := by decide
  exact (hSmall k).trans_le (twelve_le_matcherWords p)

theorem slmp_equations : ∀ ruleset ∈ [fpspinRulesetSlmp], ∀ k, (ruleset.r k).start = (ruleset.r k).stop := by
  decide

theorem judge_msgId (rules : RuleStore) (beats : List (Beat p)) :
    (judge rules beats).msgId = (loadLE 4 (frameBytes beats) 44).setWidth p.msgIdWidth := by
  change slmpMsgId p _ = _
  rw [slmpMsgId, matcherWord_frame beats (Nat.lt_of_lt_of_le (by decide) (twelve_le_matcherWords p))]

/-- Classification of SLMP frames with mode registers that are zero, as after reset. -/
theorem slmp_classified (d : Device) (hModes : ∀ j, d.regs (.meMode j) = 0) :
    ∃ d', fpspinProgMe [fpspinRulesetSlmp] d = some d' ∧
      (∀ beats : List (Beat p),
        ((judge (matchConf d'.regs).stored beats).matched = true ∧
            (judge (matchConf d'.regs).stored beats).rulesetId = 0 ↔ IsSlmp (frameBytes beats)) ∧
        (IsSlmp (frameBytes beats) →
          decodeIsEom (judge (matchConf d'.regs).stored beats).tag = (frameBytes beats 42).getLsbD 7 ∧
          decodeMsgid p.msgIdWidth (judge (matchConf d'.regs).stored beats).tag =
            (loadLE 4 (frameBytes beats) 44).setWidth p.msgIdWidth)) ∧
      ∀ (inputs : Nat → Input p) (t₀ t : Nat), (∀ t, Sound (runAt inputs t) (inputs t)) →
        Quiet (runAt inputs t₀) (inputs t₀) → (∀ t, t₀ ≤ t → (inputs t).conf = matchConf d'.regs) →
        t₀ ≤ t →
          ∃ frames, Delivered inputs t ((trackAt inputs t₀).done ++ frames) ∧
            ∀ f ∈ frames, f.rules = (matchConf d'.regs).stored := by
  refine ⟨_, fpspinProgMe_eq d (by decide), fun beats => ?_, ?_⟩
  · have hAlike : Alike (fun j => (d.regs (.meMode j)).getLsbD 0) [fpspinRulesetSlmp] (frameBytes beats) := by
      refine alike_of_equations (fun i hi => ?_) slmp_equations _
      obtain rfl : i = 0 := by
        apply Fin.ext
        simpa using hi
      simp [hModes, Mode.ofReg, rulesetOf, fpspinRulesetSlmp]
    obtain ⟨hMatched, hEom⟩ := (judge_reverses d.regs (slmp_indices p) beats).classified_iff.mpr hAlike
    have hZero :
        (judge (matchConf (reconfigured d.regs (rulesetWrites [fpspinRulesetSlmp]))).stored beats).matched = true ∧
        (judge (matchConf (reconfigured d.regs (rulesetWrites [fpspinRulesetSlmp]))).stored beats).rulesetId = 0 ↔
          IsSlmp (frameBytes beats) := by
      rw [hMatched 0, ← slmp_accepts]
      constructor
      · exact fun h => h.2.1
      · exact fun h => ⟨Nat.one_pos, h, fun j hj => absurd hj (Fin.not_lt_zero j)⟩
    refine ⟨hZero, fun hSlmp => ⟨?_, ?_⟩⟩
    · have hDecode := IngressDatapath.decodeIsEom_tag
        (judge (matchConf (reconfigured d.regs (rulesetWrites [fpspinRulesetSlmp]))).stored beats) rfl
      rw [BitVec.setWidth_eq] at hDecode
      rw [hDecode, hEom 0 (hZero.mpr hSlmp)]
      exact slmpEom_holds _
    · have hDecode := IngressDatapath.decodeMsgid_tag
        (judge (matchConf (reconfigured d.regs (rulesetWrites [fpspinRulesetSlmp]))).stored beats) rfl
      rw [BitVec.setWidth_eq] at hDecode
      rw [hDecode, judge_msgId]
  · intro inputs t₀ t hSound hQuiet hConf ht
    exact delivered_since hQuiet hConf hSound ht

def lastOfMessage : List (Beat deployed) :=
  [word (0x0008 <<< 96 + 17 <<< 184 + 0x7224 <<< 288 + 0x80 <<< 336 + 5 <<< 352) true]

theorem slmp_classified_lastOfMessage :
    (∀ j, probed.regs (.meMode j) = 0) ∧
      ∃ d', fpspinProgMe [fpspinRulesetSlmp] probed = some d' ∧
        (judge (matchConf d'.regs).stored lastOfMessage).matched = true ∧
        decodeIsEom (judge (matchConf d'.regs).stored lastOfMessage).tag = true ∧
        decodeMsgid 16 (judge (matchConf d'.regs).stored lastOfMessage).tag = 5 :=
  have hModes : ∀ j, probed.regs (.meMode j) = 0 := by decide +kernel
  have hSlmp : IsSlmp (frameBytes lastOfMessage) := ⟨by decide +kernel, by decide +kernel, by decide +kernel⟩
  have hEom : (frameBytes lastOfMessage 42).getLsbD 7 = true := by decide +kernel
  have hMsgId : (loadLE 4 (frameBytes lastOfMessage) 44).setWidth 16 = (5 : BitVec 16) := by decide +kernel
  have ⟨d', hProg, hClass, _⟩ := slmp_classified (p := deployed) probed hModes
  have ⟨hMatched, hTag⟩ := hClass lastOfMessage
  ⟨hModes, d', hProg, (hMatched.mpr hSlmp).1, (hTag hSlmp).1.trans hEom, (hTag hSlmp).2.trans hMsgId⟩

end FPsPIN.Loader
