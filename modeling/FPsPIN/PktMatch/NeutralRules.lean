import Mathlib.Data.List.Basic
import FPsPIN.PktMatch.Preservation

/-!
# Rules that are switched off

The file header switches a rule off with a mask of zero or with an index
beyond UMATCH_MATCHER_LEN: the rule would then give the unit of the mode. The
matching units have no such case. A mask of zero compares start with zero, and
the index register keeps the low bits of an index, so the rule looks at some
other word. The ruleset's result is the documented one exactly when this
happens to make no difference.
-/

namespace FPsPIN.PktMatch

variable (p : Params)

/-- Switched off, as the header has it. -/
def Rule.switchedOff (r : Rule) : Bool := r.mask == 0 || decide (p.matcherLen ≤ 4 * r.idx.toNat)

section Rulesets

variable (store : RuleStore) (matcher : Nat → BitVec p.dataWidth) (j : RulesetId)

/-- The rules of a ruleset that are not switched off. -/
def remaining : List EntryId := matchEntries.filter (fun k => !(store.rule j k).switchedOff p)

/-- The result that the header describes: only the remaining rules count. -/
def remainingMatched : Bool :=
  if store.mode j then (remaining p store j).any (muMatched p store matcher j)
  else (remaining p store j).all (muMatched p store matcher j)

/-- What a matching unit makes of a rule that is switched off. -/
def offMatched (k : EntryId) : Bool :=
  if (store.rule j k).mask = 0 then decide ((store.rule j k).start = 0) else muMatched p store matcher j k

/-- The rules that are switched off give the unit of the mode, true for MATCH_AND and false for MATCH_OR. -/
def OffUnit : Prop :=
  ∀ k ∈ matchEntries, (store.rule j k).switchedOff p = true → offMatched p store matcher j k = !store.mode j

end Rulesets

variable {p}
variable {store : RuleStore} {matcher : Nat → BitVec p.dataWidth} {j : RulesetId}

theorem muMatched_of_mask_zero {k : EntryId} (h : (store.rule j k).mask = 0) :
    muMatched p store matcher j k = decide ((store.rule j k).start = 0) := by
  have hData : muData p store matcher j k = 0#32 := by rw [muData, h]; exact BitVec.and_zero
  have hStop : 0#32 ≤ (store.rule j k).stop := Nat.zero_le _
  rw [muMatched, hData, decide_eq_true hStop, Bool.and_true, decide_eq_decide]
  exact BitVec.le_zero_iff

theorem offMatched_eq (k : EntryId) : offMatched p store matcher j k = muMatched p store matcher j k := by
  rw [offMatched]
  split
  next h => exact (muMatched_of_mask_zero h).symm
  next => rfl

theorem all_eq_all_filter_iff {α : Type*} (entries : List α) (off holds : α → Bool) :
    entries.all holds = (entries.filter (fun k => !off k)).all holds ↔
      ((entries.filter (fun k => !off k)).all holds = true →
        ∀ k ∈ entries, off k = true → holds k = true) := by
  rw [Bool.eq_iff_iff]
  simp only [List.all_eq_true, List.mem_filter, Bool.not_eq_true']
  constructor
  · intro h hRest k hk _
    exact h.mpr hRest k hk
  · intro h
    refine ⟨fun hAll k hk => hAll k hk.1, fun hRest k hk => ?_⟩
    cases hOff : off k with
    | false => exact hRest k ⟨hk, hOff⟩
    | true => exact h hRest k hk hOff

theorem any_eq_any_filter_iff {α : Type*} (entries : List α) (off holds : α → Bool) :
    entries.any holds = (entries.filter (fun k => !off k)).any holds ↔
      ((entries.filter (fun k => !off k)).any holds = false →
        ∀ k ∈ entries, off k = true → holds k = false) := by
  have hAll := all_eq_all_filter_iff entries off (fun k => !holds k)
  rw [List.all_eq_not_any_not, List.all_eq_not_any_not] at hAll
  simpa using hAll

theorem rulesetMatched_eq_remainingMatched_iff (store : RuleStore) (matcher : Nat → BitVec p.dataWidth)
    (j : RulesetId) :
    rulesetMatched p store matcher j = remainingMatched p store matcher j ↔
      (remainingMatched p store matcher j = !store.mode j → OffUnit p store matcher j) := by
  simp only [rulesetMatched_eq, remainingMatched, OffUnit, offMatched_eq, remaining]
  cases store.mode j with
  | false => exact all_eq_all_filter_iff matchEntries _ _
  | true => exact any_eq_any_filter_iff matchEntries _ _

/-- A ruleset has the documented result exactly if the rules that are switched off do not decide where the
remaining ones have not. If this holds of every ruleset, the frame goes to the ruleset it should. -/
theorem neutral_rules_iff (store : RuleStore) (matcher : Nat → BitVec p.dataWidth) :
    (∀ j, rulesetMatched p store matcher j = remainingMatched p store matcher j ↔
      (remainingMatched p store matcher j = !store.mode j → OffUnit p store matcher j)) ∧
      ((∀ j, remainingMatched p store matcher j = (!store.mode j) → OffUnit p store matcher j) →
        matchedRuleset p store matcher = (List.finRange 4).find? (remainingMatched p store matcher)) := by
  refine ⟨rulesetMatched_eq_remainingMatched_iff store matcher, fun h => ?_⟩
  have hResults : rulesetMatched p store matcher = remainingMatched p store matcher :=
    funext (fun j => (rulesetMatched_eq_remainingMatched_iff store matcher j).mpr (h j))
  rw [matchedRuleset, hResults]

def disabledRules : RuleStore := ⟨fun _ => true, fun _ _ => ⟨0, 0, 0, 0⟩⟩

/-- No rule is left, and the ruleset matches every frame. -/
theorem disabled_rules_match :
    ¬ ∀ (store : RuleStore) (matcher : Nat → BitVec deployed.dataWidth) (j : RulesetId),
      rulesetMatched deployed store matcher j = remainingMatched deployed store matcher j := by
  intro h
  exact absurd (h disabledRules (fun _ => 0) 0) (by decide +kernel)

/-- A rule on word 32 of a register of 32 words. It looks at word 0. -/
def beyondRules : RuleStore :=
  ⟨fun _ => true, fun _ k => if k.val = 0 then ⟨32, BitVec.allOnes 32, 5, 5⟩ else noRule⟩

example : rulesetMatched deployed beyondRules (fun _ => 5) 0 = true ∧
    remainingMatched deployed beyondRules (fun _ => 5) 0 = false := by decide +kernel

end FPsPIN.PktMatch
