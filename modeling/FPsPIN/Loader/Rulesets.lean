import FPsPIN.Loader.Model

/-!
# The meaning of rulesets

The host API compares big-endian words of a frame. The match engine compares
little-endian words with the bounds in network order, that is, it compares all
of them with their bytes reversed. Masks and equations do not notice, but the
order does; and the mode that counts is the one in the mode register.
-/

namespace FPsPIN.Loader

open FPsPIN.PktMatch FPsPIN.Bytes FPsPIN.PriorityEncoder FPsPIN.Driver

section Readings

variable (ru : FpspinRule) (rs : FpspinRuleset) (frame : Memory)

def FpspinRule.value : BitVec 32 := loadBE 4 frame (4 * ru.idx.toNat) &&& ru.mask

def FpspinRule.holds : Bool := decide (ru.start ≤ ru.value frame) && decide (ru.value frame ≤ ru.stop)

/-- The rule with the bytes of all words reversed. -/
def FpspinRule.holdsReversed : Bool :=
  decide (bswap32 ru.start ≤ bswap32 (ru.value frame)) && decide (bswap32 (ru.value frame) ≤ bswap32 ru.stop)

/-- All rules but the last decide. -/
def Mode.combine (mode : Mode) (h : EntryId → Bool) : Bool :=
  match mode with
  | .modeAnd => matchEntries.all h
  | .modeOr => matchEntries.any h

def FpspinRuleset.accepts : Bool := rs.mode.combine fun k => (rs.r k).holds frame

/-- The mode that a mode register stands for. -/
def Mode.ofReg (mode : Bool) : Mode := if mode then .modeOr else .modeAnd

def FpspinRuleset.acceptsReversed (mode : Bool) : Bool :=
  (Mode.ofReg mode).combine fun k => (rs.r k).holdsReversed frame

end Readings

/-- The frame is classified as the host API says. -/
def Classified {p : Params} (rs : List FpspinRuleset) (frame : Memory) (v : Verdict p) : Prop :=
  (∀ i, v.matched = true ∧ v.rulesetId = i ↔
    i < rs.length ∧ IsFirst (fun j => (rulesetOf rs j).accepts frame) i) ∧
  ∀ i, v.matched = true ∧ v.rulesetId = i → v.eom = ((rulesetOf rs i).r eomEntry).holds frame

/-- The first ruleset that accepts the frame in one of the two readings accepts it in both, with the
same EOM rule. -/
def Alike (modes : RulesetId → Bool) (rs : List FpspinRuleset) (frame : Memory) : Prop :=
  ∀ i : RulesetId, i < rs.length →
    (∀ j < i, (rulesetOf rs j).accepts frame = false ∧ (rulesetOf rs j).acceptsReversed frame (modes j) = false) →
    (rulesetOf rs i).accepts frame = (rulesetOf rs i).acceptsReversed frame (modes i) ∧
      ((rulesetOf rs i).accepts frame = true →
        ((rulesetOf rs i).r eomEntry).holds frame = ((rulesetOf rs i).r eomEntry).holdsReversed frame)

section Equations

variable {ru : FpspinRule} {frame : Memory}

theorem FpspinRule.holds_iff_eq (h : ru.start = ru.stop) : ru.holds frame = true ↔ ru.value frame = ru.start := by
  rw [holds, Bool.and_eq_true, decide_eq_true_iff, decide_eq_true_iff, ← h]
  exact ⟨fun hBounds => BitVec.le_antisymm hBounds.2 hBounds.1,
    fun hEq => hEq ▸ ⟨BitVec.le_refl _, BitVec.le_refl _⟩⟩

theorem FpspinRule.holdsReversed_iff_eq (h : ru.start = ru.stop) :
    ru.holdsReversed frame = true ↔ ru.value frame = ru.start := by
  rw [holdsReversed, Bool.and_eq_true, decide_eq_true_iff, decide_eq_true_iff, ← h]
  constructor
  · rintro ⟨hStart, hStop⟩
    rw [← bswap32_bswap32 (ru.value frame), BitVec.le_antisymm hStop hStart, bswap32_bswap32]
  · intro hEq
    exact hEq ▸ ⟨BitVec.le_refl _, BitVec.le_refl _⟩

theorem FpspinRule.holds_eq_holdsReversed (h : ru.start = ru.stop) : ru.holds frame = ru.holdsReversed frame := by
  rw [Bool.eq_iff_iff, holds_iff_eq h, holdsReversed_iff_eq h]

theorem alike_of_equations {modes : RulesetId → Bool} {rs : List FpspinRuleset}
    (hModes : ∀ i : RulesetId, i < rs.length → Mode.ofReg (modes i) = (rulesetOf rs i).mode)
    (hEquations : ∀ ruleset ∈ rs, ∀ k, (ruleset.r k).start = (ruleset.r k).stop) (frame : Memory) :
    Alike modes rs frame := by
  intro i hi _
  have hRules : ∀ k, ((rulesetOf rs i).r k).holds frame = ((rulesetOf rs i).r k).holdsReversed frame := fun k => by
    apply FpspinRule.holds_eq_holdsReversed
    rw [rulesetOf, List.getD_eq_getElem _ _ hi]
    exact hEquations _ (List.getElem_mem hi) k
  refine ⟨?_, fun _ => hRules 3⟩
  simp only [FpspinRuleset.accepts, FpspinRuleset.acceptsReversed, hRules, hModes i hi]

end Equations

section Hardware

variable {p : Params} {store : RuleStore} {beats : List (Beat p)}

theorem muMatched_inHardware {ru : FpspinRule} {j : RulesetId} {k : EntryId} (hRule : store.rule j k = ru.inHardware)
    (hIdx : ru.idx.toNat < p.matcherWidth / 32) :
    muMatched p store (loadData (beats.take p.matcherBeats)) j k = ru.holdsReversed (frameBytes beats) := by
  have hMod : ru.idx.toNat % 2 ^ p.matcherIdxWidth = ru.idx.toNat :=
    Nat.mod_eq_of_lt (hIdx.trans_le (Nat.le_pow_clog (by decide) _))
  have hData : muData p store (loadData (beats.take p.matcherBeats)) j k = bswap32 (ru.value (frameBytes beats)) := by
    rw [muData, hRule]
    change matcherWord p _ (ru.idx.toNat % _) &&& bswap32 ru.mask = _
    rw [hMod, matcherWord_frame beats hIdx, FpspinRule.value, bswap32_and, bswap32_loadBE]
  rw [muMatched, hData, hRule]
  rfl

theorem rulesetMatched_inHardware {rs : FpspinRuleset} {j : RulesetId}
    (hRule : ∀ k, store.rule j k = (rs.r k).inHardware) (hIdx : ∀ k, (rs.r k).idx.toNat < p.matcherWidth / 32) :
    rulesetMatched p store (loadData (beats.take p.matcherBeats)) j =
      rs.acceptsReversed (frameBytes beats) (store.mode j) := by
  have hUnits : muMatched p store (loadData (beats.take p.matcherBeats)) j =
      fun k => (rs.r k).holdsReversed (frameBytes beats) :=
    funext fun k => muMatched_inHardware (hRule k) (hIdx k)
  rw [rulesetMatched_eq, hUnits, FpspinRuleset.acceptsReversed, Mode.ofReg]
  cases store.mode j <;> rfl

end Hardware

section Classification

variable {p : Params}

theorem Mode.combine_false (mode : Mode) : mode.combine (fun _ => false) = false := by
  cases mode <;> rfl

theorem bypass_accepts (frame : Memory) : fpspinRulesetBypass.accepts frame = false := by
  have hRule : ruleFalse.holds frame = false := by simp [FpspinRule.holds, FpspinRule.value, ruleFalse]
  simp [FpspinRuleset.accepts, fpspinRulesetBypass, hRule, Mode.combine_false]

theorem bypass_acceptsReversed (frame : Memory) (mode : Bool) :
    fpspinRulesetBypass.acceptsReversed frame mode = false := by
  have hValue : ruleFalse.value frame = 0 := by simp [FpspinRule.value, ruleFalse]
  have hRule : ruleFalse.holdsReversed frame = false := by
    rw [FpspinRule.holdsReversed, hValue]
    decide
  simp [FpspinRuleset.acceptsReversed, fpspinRulesetBypass, hRule, Mode.combine_false]

theorem rulesetOf_of_le {rs : List FpspinRuleset} {i : RulesetId} (h : rs.length ≤ i) :
    rulesetOf rs i = fpspinRulesetBypass := by
  rw [rulesetOf, List.getD_eq_default _ _ h]

theorem lt_length_of_accepts {rs : List FpspinRuleset} {i : RulesetId} {frame : Memory}
    (h : (rulesetOf rs i).accepts frame = true) : i < rs.length := by
  by_contra hLe
  rw [rulesetOf_of_le (Nat.le_of_not_lt hLe), bypass_accepts] at h
  cases h

/-- What the match engine does with the programmed rules: it reverses the bytes. -/
structure Reverses (modes : RulesetId → Bool) (rs : List FpspinRuleset) (frame : Memory) (v : Verdict p) : Prop where
  matched : ∀ i, v.matched = true ∧ v.rulesetId = i ↔
    IsFirst (fun j => (rulesetOf rs j).acceptsReversed frame (modes j)) i
  eom : ∀ i, v.matched = true ∧ v.rulesetId = i → v.eom = ((rulesetOf rs i).r eomEntry).holdsReversed frame

theorem Reverses.classified_iff {modes : RulesetId → Bool} {rs : List FpspinRuleset} {frame : Memory} {v : Verdict p}
    (h : Reverses modes rs frame v) : Classified rs frame v ↔ Alike modes rs frame := by
  have hBound : ∀ i : RulesetId, (i < rs.length ∧ IsFirst (fun j => (rulesetOf rs j).accepts frame) i) ↔
      IsFirst (fun j => (rulesetOf rs j).accepts frame) i :=
    fun i => and_iff_right_of_imp fun hFirst => lt_length_of_accepts hFirst.1
  constructor
  · rintro ⟨hMatched, hEom⟩ i - hBefore
    have hFirst : ∀ i, IsFirst (fun j => (rulesetOf rs j).accepts frame) i ↔
        IsFirst (fun j => (rulesetOf rs j).acceptsReversed frame (modes j)) i := fun i => by
      rw [← h.matched, hMatched, hBound]
    refine ⟨isFirst_iff_alike.mp hFirst i hBefore, fun hAccepts => ?_⟩
    have hVerdict := (h.matched i).mpr ((hFirst i).mp ⟨hAccepts, fun j hj => (hBefore j hj).1⟩)
    rw [← hEom i hVerdict, h.eom i hVerdict]
  · intro hAlike
    have hFirst : ∀ i, IsFirst (fun j => (rulesetOf rs j).accepts frame) i ↔
        IsFirst (fun j => (rulesetOf rs j).acceptsReversed frame (modes j)) i := by
      apply isFirst_iff_alike.mpr
      intro i hBefore
      by_cases hi : i < rs.length
      · exact (hAlike i hi hBefore).1
      · rw [rulesetOf_of_le (Nat.le_of_not_lt hi), bypass_accepts, bypass_acceptsReversed]
    refine ⟨fun i => ?_, fun i hVerdict => ?_⟩
    · rw [h.matched, hBound, hFirst]
    · have hReversed := (h.matched i).mp hVerdict
      have hAccepts := (hFirst i).mpr hReversed
      rw [h.eom i hVerdict]
      exact ((hAlike i (lt_length_of_accepts hAccepts.1) fun j hj => ⟨hAccepts.2 j hj, hReversed.2 j hj⟩).2
        hAccepts.1).symm

theorem idx_rulesetOf {rs : List FpspinRuleset}
    (hIdx : ∀ ruleset ∈ rs, ∀ k, (ruleset.r k).idx.toNat < p.matcherWidth / 32) (j : RulesetId) (k : EntryId) :
    ((rulesetOf rs j).r k).idx.toNat < p.matcherWidth / 32 := by
  by_cases hj : j < rs.length
  · rw [rulesetOf, List.getD_eq_getElem _ _ hj]
    exact hIdx _ (List.getElem_mem hj) k
  · rw [rulesetOf_of_le (Nat.le_of_not_lt hj)]
    exact Nat.lt_of_lt_of_le (Nat.succ_pos 11) (twelve_le_matcherWords p)

theorem judge_reverses (regs : RegFile) {rs : List FpspinRuleset}
    (hIdx : ∀ ruleset ∈ rs, ∀ k, (ruleset.r k).idx.toNat < p.matcherWidth / 32) (beats : List (Beat p)) :
    Reverses (fun j => (regs (.meMode j)).getLsbD 0) rs (frameBytes beats)
      (judge (matchConf (reconfigured regs (rulesetWrites rs))).stored beats) := by
  have hBits : rulesetMatched p (matchConf (reconfigured regs (rulesetWrites rs))).stored
      (loadData (beats.take p.matcherBeats)) =
        fun j => (rulesetOf rs j).acceptsReversed (frameBytes beats) ((regs (.meMode j)).getLsbD 0) := by
    funext j
    rw [matchConf_reconfigured]
    exact rulesetMatched_inHardware (fun _ => rfl) (idx_rulesetOf hIdx j)
  have hMatched := verdict_matched_iff (matchConf (reconfigured regs (rulesetWrites rs))).stored
    (loadData (beats.take p.matcherBeats))
  constructor
  · intro i
    rw [← hBits]
    exact hMatched i
  · intro i hVerdict
    have hEom := verdict_eom _ _ ((hMatched i).mp hVerdict)
    rw [judge, hEom, rulesetEom, matchConf_reconfigured]
    exact muMatched_inHardware rfl (idx_rulesetOf hIdx i 3)

/-- After fpspin_prog_me a frame is classified as the host API says exactly if the two readings of the
rulesets are alike for it; frames that arrive when the match engine is quiet are judged by these rules. -/
theorem rulesets_classify_iff (d : Device) (rs : List FpspinRuleset) (hLen : rs.length ≤ 4)
    (hIdx : ∀ ruleset ∈ rs, ∀ k, (ruleset.r k).idx.toNat < p.matcherWidth / 32) :
    ∃ d', fpspinProgMe rs d = some d' ∧
      (∀ beats : List (Beat p), Classified rs (frameBytes beats) (judge (matchConf d'.regs).stored beats) ↔
        Alike (fun j => (d.regs (.meMode j)).getLsbD 0) rs (frameBytes beats)) ∧
      ∀ (inputs : Nat → Input p) (t₀ t : Nat), (∀ t, Sound (runAt inputs t) (inputs t)) →
        Quiet (runAt inputs t₀) (inputs t₀) → (∀ t, t₀ ≤ t → (inputs t).conf = matchConf d'.regs) →
        t₀ ≤ t →
          ∃ frames, Delivered inputs t ((trackAt inputs t₀).done ++ frames) ∧
            ∀ f ∈ frames, f.rules = (matchConf d'.regs).stored := by
  refine ⟨_, fpspinProgMe_eq d hLen, ?_, ?_⟩
  · intro beats
    exact (judge_reverses d.regs hIdx beats).classified_iff
  · intro inputs t₀ t hSound hQuiet hConf ht
    exact delivered_since hQuiet hConf hSound ht

def ipOrUdp : FpspinRuleset :=
  ⟨fun k => if k.val = 0 then ruleIp else if k.val = 1 then ruleIpProto 17 else ruleFalse, .modeOr⟩

def portRange : FpspinRuleset :=
  ⟨fun k => if k.val = 0 then ⟨9, 0xffff0000, 1000 <<< 16, 2000 <<< 16⟩ else ruleEmpty, .modeAnd⟩

def toPort1024 : List (Beat deployed) := [word (0x0008 <<< 96 + 0x0004 <<< 288) true]

theorem not_classified_of_missed {rs : FpspinRuleset} {frame : Memory} {v : Verdict p}
    (hAccepts : rs.accepts frame = true)
    (hMissed : v.matched = false) : ¬ Classified [rs] frame v := by
  rintro ⟨hMatched, -⟩
  have hSent := (hMatched 0).mpr ⟨Nat.one_pos, hAccepts, fun j hj => absurd hj (Fin.not_lt_zero j)⟩
  rw [hMissed] at hSent
  exact Bool.false_ne_true hSent.1

theorem rulesets_misread :
    (∃ d', fpspinProgMe [ipOrUdp] probed = some d' ∧
      ¬ Classified [ipOrUdp] (frameBytes toPort1024) (judge (matchConf d'.regs).stored toPort1024)) ∧
    ∃ d', fpspinProgMe [portRange] probed = some d' ∧
      ¬ Classified [portRange] (frameBytes toPort1024) (judge (matchConf d'.regs).stored toPort1024) :=
  ⟨⟨_, rfl, not_classified_of_missed (by decide +kernel) (by decide +kernel)⟩,
    ⟨_, rfl, not_classified_of_missed (by decide +kernel) (by decide +kernel)⟩⟩

theorem rulesets_classify_iff_slmp :
    ∃ d', fpspinProgMe [fpspinRulesetSlmp] probed = some d' ∧
      (Classified [fpspinRulesetSlmp] (frameBytes toPort1024) (judge (matchConf d'.regs).stored toPort1024) ↔
        Alike (fun j => (probed.regs (.meMode j)).getLsbD 0) [fpspinRulesetSlmp] (frameBytes toPort1024)) :=
  have ⟨d', hProg, hIff, _⟩ :=
    rulesets_classify_iff (p := deployed) probed [fpspinRulesetSlmp] (by decide) (by decide)
  ⟨d', hProg, hIff toPort1024⟩

end Classification

end FPsPIN.Loader
