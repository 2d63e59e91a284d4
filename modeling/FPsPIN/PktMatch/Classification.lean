import Mathlib.Order.Fin.Basic
import FPsPIN.Lib.Bytes
import FPsPIN.Lib.PriorityEncoder
import FPsPIN.PktMatch.Preservation

/-!
# What the verdict says about a frame

The matcher register holds the data lanes of the first beats of a frame, so a
word of it is a little-endian word of the frame; past the last beat it is
zero. The verdict is the first ruleset that accepts these words. In a run
under one configuration every frame is judged by that configuration.
-/

namespace FPsPIN.PktMatch

open FPsPIN.Bytes FPsPIN.PriorityEncoder LatencyFifo Run

variable {p : Params}

section Words

def frameBit (beats : List (Beat p)) (k : Nat) : Bool := (loadData beats (k / p.dataWidth)).getLsbD (k % p.dataWidth)

/-- The bytes of a frame, as the data lanes carry them. -/
def frameBytes (beats : List (Beat p)) : Memory := fun b =>
  BitVec.ofBoolListLE ((List.range 8).map fun i => frameBit beats (8 * b + i))

theorem getLsbD_frameBytes (beats : List (Beat p)) (b : Nat) {i : Nat} (hi : i < 8) :
    (frameBytes beats b).getLsbD i = frameBit beats (8 * b + i) := by
  change (BitVec.ofBoolListLE _).getLsbD i = _
  rw [BitVec.getLsbD_ofBoolListLE]
  simp [hi]

theorem getLsbD_matcherWord (matcher : Nat → BitVec p.dataWidth) (k : Nat) {i : Nat} (hi : i < 32) :
    (matcherWord p matcher k).getLsbD i = matcherBit p matcher (32 * k + i) := by
  change (BitVec.ofBoolListLE _).getLsbD i = _
  rw [BitVec.getLsbD_ofBoolListLE]
  simp [hi]

theorem loadData_take (beats : List (Beat p)) {n k : Nat} (hk : k < n) :
    loadData (beats.take n) k = loadData beats k := by
  simp [loadData, List.getD_eq_getElem?_getD, hk]

theorem twelve_le_matcherWords (p : Params) : 12 ≤ p.matcherWidth / 32 := by
  have hLen := p.matcherLen_ge
  have hCeil : p.matcherLen * 8 ≤ p.matcherWidth := by
    have hMod := Nat.mod_lt (p.matcherLen * 8 + p.dataWidth - 1) p.dataWidth_pos
    have hDiv := Nat.div_add_mod (p.matcherLen * 8 + p.dataWidth - 1) p.dataWidth
    have hPos := p.dataWidth_pos
    rw [Params.matcherWidth, Params.matcherBeats, Nat.mul_comm _ p.dataWidth]
    omega
  omega

theorem matcherWord_frame (beats : List (Beat p)) {k : Nat} (hk : k < p.matcherWidth / 32) :
    matcherWord p (loadData (beats.take p.matcherBeats)) k = loadLE 4 (frameBytes beats) (4 * k) := by
  apply BitVec.eq_of_getLsbD_eq
  intro i hi
  have hBit : 32 * k + i < p.matcherWidth := by omega
  have hBeat : (32 * k + i) / p.dataWidth < p.matcherBeats := by
    rw [Nat.div_lt_iff_lt_mul p.dataWidth_pos]
    exact hBit
  have hPos : 8 * (4 * k + i / 8) + i % 8 = 32 * k + i := by omega
  rw [getLsbD_matcherWord _ _ hi, getLsbD_loadLE _ _ hi, getLsbD_frameBytes _ _ (Nat.mod_lt i (by decide)), hPos,
    matcherBit, decide_eq_true hBit, Bool.true_and, loadData_take beats hBeat, frameBit]

end Words

section Priority

variable (store : RuleStore) (matcher : Nat → BitVec p.dataWidth)

theorem matchedRuleset_eq_some (i : RulesetId) :
    matchedRuleset p store matcher = some i ↔ IsFirst (rulesetMatched p store matcher) i := by
  rw [matchedRuleset, List.find?_eq_some_iff_getElem, IsFirst]
  constructor
  · rintro ⟨hi, k, hk, hGet, hBefore⟩
    rw [List.getElem_finRange] at hGet
    subst hGet
    refine ⟨hi, fun j hj => ?_⟩
    have hNot := hBefore j.val hj
    simpa using hNot
  · rintro ⟨hi, hBefore⟩
    refine ⟨hi, i.val, by simp, by simp, fun j hj => ?_⟩
    have hNot := hBefore ⟨j, by omega⟩ hj
    simpa using hNot

theorem verdict_matched_iff (i : RulesetId) :
    (verdict p store matcher).matched = true ∧ (verdict p store matcher).rulesetId = i ↔
      IsFirst (rulesetMatched p store matcher) i := by
  rw [← matchedRuleset_eq_some]
  simp only [verdict]
  cases matchedRuleset p store matcher <;> simp

theorem verdict_eom {i : RulesetId} (h : IsFirst (rulesetMatched p store matcher) i) :
    (verdict p store matcher).eom = rulesetEom p store matcher i := by
  rw [← matchedRuleset_eq_some] at h
  simp [verdict, h]

theorem verdict_matched_eq_false :
    (verdict p store matcher).matched = false ↔ ∀ i, ¬ IsFirst (rulesetMatched p store matcher) i := by
  simp only [← matchedRuleset_eq_some, verdict]
  cases matchedRuleset p store matcher <;> simp

end Priority

section Frames

variable (s : State p) (i : Input p)

/-- From the first beat of a frame to its last. -/
def InFrame : Prop := s.stateQ ≠ .idle ∧ s.stateQ ≠ .metadata

theorem store_step (h : InFrame (step s i)) : (step s i).store = s.store := by
  obtain ⟨hIdle, hMetadata⟩ := h
  change (outputs s i).store = s.store
  change stateD s i ≠ .idle at hIdle
  change stateD s i ≠ .metadata at hMetadata
  unfold outputs
  cases hD : stateD s i with
  | idle => exact absurd hD hIdle
  | metadata => exact absurd hD hMetadata
  | recv | recvLast => cases received s i <;> rfl
  | recvWait | matching | send | sendWait | sendLast | passthrough => rfl

theorem store_step_of_not_inFrame (h : ¬ InFrame (step s i)) : (step s i).store = i.conf.stored := by
  change (outputs s i).store = i.conf.stored
  unfold outputs
  cases hD : stateD s i with
  | idle | metadata => rfl
  | recv | recvLast | recvWait | matching | send | sendWait | sendLast | passthrough =>
    exact absurd ⟨by simp [step, hD], by simp [step, hD]⟩ h

theorem inFrame_step (h : InFrame (step s i)) :
    InFrame s ∨ s.stateQ = .idle ∧ (received s i).isSome = true := by
  obtain ⟨hIdle, hMetadata⟩ := h
  change stateD s i ≠ .idle at hIdle
  change stateD s i ≠ .metadata at hMetadata
  cases hQ : s.stateQ with
  | idle =>
    refine .inr ⟨rfl, ?_⟩
    cases hReceived : received s i with
    | none => exact absurd (by rw [stateD, hQ, hReceived]) hIdle
    | some _ => rfl
  | metadata =>
    simp only [stateD, hQ] at hIdle hMetadata
    split_ifs at hIdle hMetadata with hReady
    · exact absurd rfl hIdle
    · exact absurd rfl hMetadata
  | recv | recvWait | recvLast | matching | send | sendWait | sendLast | passthrough =>
    exact .inl (by simp [InFrame, hQ])

theorem stateQ_of_matching (h : stateD s i = .matching) : s.stateQ = .recvLast := by
  grind [stateD, afterFrame]

theorem verdictQ_step (h : stateD s i = .matching) :
    verdictQ (step s i) = verdict p s.store s.matcher := by
  change verdictQ (outputs s i) = _
  unfold outputs
  rw [h]
  rfl

end Frames

section Runs

variable {inputs : Nat → Input p} {conf : MatchConf} {t₀ : Nat}

theorem store_kept (hStore : (runAt inputs t₀).store = conf.stored)
    (hConf : ∀ t, t₀ ≤ t → (inputs t).conf = conf)
    {t : Nat} (ht : t₀ ≤ t) : (runAt inputs t).store = conf.stored := by
  obtain ⟨k, rfl⟩ := Nat.exists_eq_add_of_le ht
  induction k with
  | zero => exact hStore
  | succ k ih =>
    change (step (runAt inputs (t₀ + k)) (inputs (t₀ + k))).store = _
    by_cases hFrame : InFrame (step (runAt inputs (t₀ + k)) (inputs (t₀ + k)))
    · rw [store_step _ _ hFrame]
      exact ih (Nat.le_add_right t₀ k)
    · rw [store_step_of_not_inFrame _ _ hFrame, hConf _ (Nat.le_add_right t₀ k)]

theorem store_of_conf (hConf : ∀ t, (inputs t).conf = conf) (t : Nat) : (runAt inputs t).store = conf.stored := by
  have hInit : (runAt inputs 0).store = (inputs 0).conf.stored := rfl
  exact store_kept (hInit.trans (congrArg MatchConf.stored (hConf 0))) (fun u _ => hConf u) (Nat.zero_le t)

variable (hQuiet : Quiet (runAt inputs t₀) (inputs t₀)) (hConf : ∀ t, t₀ ≤ t → (inputs t).conf = conf)
include hQuiet hConf

theorem run_store {t : Nat} (ht : t₀ < t) : (runAt inputs t).store = conf.stored := by
  have hStore : (runAt inputs (t₀ + 1)).store = conf.stored := by
    change (step (runAt inputs t₀) (inputs t₀)).store = _
    rw [store_step_of_not_inFrame _ _ (fun h => h.1 hQuiet.stateD), hConf t₀ (Nat.le_refl t₀)]
  exact store_kept hStore (fun u hu => hConf u (Nat.le_of_succ_le hu)) ht

theorem run_rules {t : Nat} (ht : t₀ ≤ t) :
    ∃ frames, (trackAt inputs t).done = (trackAt inputs t₀).done ++ frames ∧
      ∀ f ∈ frames, f.rules = conf.stored := by
  obtain ⟨k, rfl⟩ := Nat.exists_eq_add_of_le ht
  induction k with
  | zero => exact ⟨[], by simp, by simp⟩
  | succ k ih =>
    obtain ⟨frames, hDone, hRules⟩ := ih (Nat.le_add_right t₀ k)
    change ∃ frames, ((trackAt inputs (t₀ + k)).step (runAt inputs (t₀ + k)) (inputs (t₀ + k))).done = _ ∧ _
    rw [Track.step]
    split_ifs with hLeaves
    · have hLater : t₀ < t₀ + k := by
        rcases k with - | k
        · rw [Nat.add_zero, frameLeaves, hQuiet.sent] at hLeaves
          cases hLeaves
        · omega
      refine ⟨frames ++ [_], by rw [hDone, List.append_assoc], fun f hf => ?_⟩
      obtain hf | hf := List.mem_append.mp hf
      · exact hRules f hf
      · rw [List.mem_singleton.mp hf]
        exact run_store hQuiet hConf hLater
    · exact ⟨frames, hDone, hRules⟩

theorem delivered_since (hSound : ∀ t, Sound (runAt inputs t) (inputs t)) {t : Nat} (ht : t₀ ≤ t) :
    ∃ frames, Delivered inputs t ((trackAt inputs t₀).done ++ frames) ∧
      ∀ f ∈ frames, f.rules = conf.stored := by
  obtain ⟨frames, hDone, hRules⟩ := run_rules hQuiet hConf ht
  exact ⟨frames, hDone ▸ run_delivered hSound t, hRules⟩

end Runs

end FPsPIN.PktMatch
