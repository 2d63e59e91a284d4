import FPsPIN.PktMatch.Outcome

/-!
# Bytes that are not kept

The matcher register takes all bytes of a beat, whatever its tkeep. Two
streams that differ only in bytes with tkeep clear have the same frames with
the same sizes. A frame has the same outcome in both exactly if the rules
decide alike on what the matcher holds, and this they do if the words that
they look at and the message id agree.
-/

namespace FPsPIN.PktMatch

open Blocks

variable {p : Params}

/-- The beats agree on tlast, tkeep and the bytes that are kept. -/
structure Kept (b b' : Beat p) : Prop where
  tlast : b.tlast = b'.tlast
  tkeep : b.tkeep = b'.tkeep
  bytes : ∀ k, b.tkeep.getLsbD k = true → ∀ n < 8, b.tdata.getLsbD (8 * k + n) = b'.tdata.getLsbD (8 * k + n)

/-- Readings that differ in the matcher alone. -/
inductive Alike : Reading p → Reading p → Prop
  | storing {matcher matcher' idx} : Alike (.storing matcher idx) (.storing matcher' idx)
  | held {matcher matcher' count more} : Alike (.held matcher count more) (.held matcher' count more)

theorem Alike.take {r r' : Reading p} (h : Alike r r') {b b' : Beat p} (hTlast : b.tlast = b'.tlast) :
    Alike (r.take b) (r'.take b') := by
  cases h with
  | storing =>
    rw [Reading.take, Reading.take, hTlast]
    split_ifs
    · exact .held
    · exact .storing
  | held =>
    rw [Reading.take, Reading.take, hTlast]
    exact .held

theorem alike_reading {beats beats' : List (Beat p)} (h : List.Forall₂ Kept beats beats') :
    Alike (reading beats) (reading beats') := by
  have hFold : ∀ r r' : Reading p, Alike r r' →
      Alike (beats.foldl Reading.take r) (beats'.foldl Reading.take r') := by
    induction h with
    | nil => exact fun r r' hAlike => hAlike
    | cons hKept _ ih => exact fun r r' hAlike => ih _ _ (hAlike.take hKept.tlast)
  exact hFold _ _ .storing

theorem Alike.count_eq {r r' : Reading p} (h : Alike r r') : r.count = r'.count := by cases h <;> rfl

theorem Alike.complete_eq {r r' : Reading p} (h : Alike r r') : r.complete = r'.complete := by cases h <;> rfl

section Decision

variable (rules : RuleStore) (matcher matcher' : Nat → BitVec p.dataWidth)

/-- The same ruleset is selected, if any, and then with the same end-of-message result and the same message id. -/
def SameDecision : Prop :=
  matchedRuleset p rules matcher = matchedRuleset p rules matcher' ∧
    ∀ j, matchedRuleset p rules matcher = some j →
      rulesetEom p rules matcher j = rulesetEom p rules matcher' j ∧ slmpMsgId p matcher = slmpMsgId p matcher'

/-- The bits that the rules look at agree, and those of the message id. -/
structure SameInspected : Prop where
  muData : muData p rules matcher = muData p rules matcher'
  msgId : slmpMsgId p matcher = slmpMsgId p matcher'

variable {rules matcher matcher'}

theorem SameInspected.sameDecision (h : SameInspected rules matcher matcher') :
    SameDecision rules matcher matcher' := by
  have hUnits : muMatched p rules matcher = muMatched p rules matcher' := by
    funext j k
    rw [muMatched, muMatched, h.muData]
  have hResults : rulesetMatched p rules matcher = rulesetMatched p rules matcher' := by
    funext j
    rw [rulesetMatched, rulesetMatched, hUnits]
  refine ⟨by rw [matchedRuleset, matchedRuleset, hResults], fun j _ => ⟨?_, h.msgId⟩⟩
  rw [rulesetEom, rulesetEom, hUnits]

theorem Verdict.tag_inj {v v' : Verdict p} (h : v.tag = v'.tag) :
    v.msgId = v'.msgId ∧ v.eom = v'.eom ∧ v.rulesetId = v'.rulesetId := by
  have hNat := congrArg BitVec.toNat h
  rw [v.toNat_tag, v'.toNat_tag] at hNat
  have hEom := v.eom.toNat_lt
  have hEom' := v'.eom.toNat_lt
  have hRuleset := v.rulesetId.isLt
  have hRuleset' := v'.rulesetId.isLt
  have hBits : ∀ x y : Bool, x.toNat = y.toNat → x = y := by decide
  refine ⟨BitVec.eq_of_toNat_eq ?_, hBits _ _ ?_, Fin.ext ?_⟩ <;> omega

/-- The decision is seen from the port and, for a frame to PsPIN, from the tag. -/
theorem sameDecision_iff :
    SameDecision rules matcher matcher' ↔
      (verdict p rules matcher).matched = (verdict p rules matcher').matched ∧
        ((verdict p rules matcher).matched = true →
          (verdict p rules matcher).tag = (verdict p rules matcher').tag) := by
  cases hMatched : matchedRuleset p rules matcher with
  | none =>
    cases hMatched' : matchedRuleset p rules matcher' <;> simp [SameDecision, verdict, hMatched, hMatched']
  | some j =>
    cases hMatched' : matchedRuleset p rules matcher' with
    | none => simp [SameDecision, verdict, hMatched, hMatched']
    | some j' =>
      have hVerdict : verdict p rules matcher = ⟨true, j, rulesetEom p rules matcher j, slmpMsgId p matcher⟩ := by
        simp [verdict, hMatched]
      have hVerdict' : verdict p rules matcher' =
          ⟨true, j', rulesetEom p rules matcher' j', slmpMsgId p matcher'⟩ := by
        simp [verdict, hMatched']
      rw [SameDecision, hMatched, hMatched', hVerdict, hVerdict']
      constructor
      · rintro ⟨hSame, hRest⟩
        obtain rfl := Option.some.inj hSame
        obtain ⟨hEom, hMsgId⟩ := hRest j rfl
        rw [hEom, hMsgId]
        exact ⟨rfl, fun _ => rfl⟩
      · rintro ⟨-, hTag⟩
        obtain ⟨hMsgId, hEom, hRuleset⟩ := Verdict.tag_inj (hTag rfl)
        obtain rfl : j = j' := hRuleset
        refine ⟨rfl, fun k hk => ?_⟩
        obtain rfl := Option.some.inj hk
        exact ⟨hEom, hMsgId⟩

end Decision

section Runs

theorem portsOf_eq_iff {rules : RuleStore} {beats beats' : List (Beat p)}
    (hAlike : Alike (reading beats) (reading beats'))
    (hComplete : frameComplete beats = true) :
    portsOf rules beats = portsOf rules beats' ↔
      (frameVerdict rules beats).matched = (frameVerdict rules beats').matched := by
  have hPos := count_pos hComplete
  rw [portsOf, portsOf, ← hAlike.count_eq, List.replicate_right_inj (Nat.ne_of_gt hPos)]

theorem wordOf_eq_iff {rules : RuleStore} {beats beats' : List (Beat p)}
    (hAlike : Alike (reading beats) (reading beats'))
    (hPort : (frameVerdict rules beats).matched = (frameVerdict rules beats').matched) :
    wordOf rules beats = wordOf rules beats' ↔
      ((frameVerdict rules beats).matched = true →
        (frameVerdict rules beats).tag = (frameVerdict rules beats').tag) := by
  rw [wordOf, wordOf, ← hPort]
  cases (frameVerdict rules beats).matched with
  | false => simp
  | true => simp [metaWordOf, hAlike.count_eq]

theorem kept_handled {inputs inputs' : Nat → Input p} {t t' : Nat}
    (hKept : Agree Kept (acceptedOn inputs t) (acceptedOn inputs' t')) {m : Nat} {f f' : Handled p}
    (hf : (handled inputs t)[m]? = some f) (hf' : (handled inputs' t')[m]? = some f') :
    List.Forall₂ Kept f.beats f'.beats := by
  refine forall₂_of_blocks (fun xs ys h => (alike_reading h).complete_eq) (handled_isBlock inputs t)
    (handled_isBlock inputs' t') (hKept.of_prefixes (handled_beats t) (handled_beats t')) (m := m) ?_ ?_
  · rw [List.getElem?_map, hf, Option.map_some]
  · rw [List.getElem?_map, hf', Option.map_some]

/-- Over two runs under one configuration whose inputs differ only in bytes that are not kept, a frame has the
same outcome exactly if the rules decide alike on it, in particular if what they look at agrees. -/
theorem padding_iff {conf : MatchConf} {inputs inputs' : Nat → Input p} (hConf : ∀ t, (inputs t).conf = conf)
    (hConf' : ∀ t, (inputs' t).conf = conf) {t t' : Nat}
    (hKept : Agree Kept (acceptedOn inputs t) (acceptedOn inputs' t')) {m : Nat}
    {seen seen' : Handled p × Option (BitVec p.tagWidth × Nat)} (hSeen : (treated inputs t)[m]? = some seen)
    (hSeen' : (treated inputs' t')[m]? = some seen') :
    ((seen.1.ports = seen'.1.ports ∧ seen.2 = seen'.2) ↔
      SameDecision conf.stored (reading seen.1.beats).matcher (reading seen'.1.beats).matcher) ∧
      (SameInspected conf.stored (reading seen.1.beats).matcher (reading seen'.1.beats).matcher →
        seen.1.ports = seen'.1.ports ∧ seen.2 = seen'.2) := by
  obtain ⟨hHandled, hPorts, hWord⟩ := treated_getElem? hConf hSeen
  obtain ⟨hHandled', hPorts', hWord'⟩ := treated_getElem? hConf' hSeen'
  have hAlike := alike_reading (kept_handled hKept hHandled hHandled')
  have hComplete := (run_isBlock (List.mem_of_getElem? hHandled)).complete
  have hIff : (seen.1.ports = seen'.1.ports ∧ seen.2 = seen'.2) ↔
      SameDecision conf.stored (reading seen.1.beats).matcher (reading seen'.1.beats).matcher := by
    rw [hPorts, hPorts', portsOf_eq_iff hAlike hComplete, hWord, hWord', sameDecision_iff]
    exact and_congr_right (wordOf_eq_iff hAlike)
  exact ⟨hIff, fun h => hIff.mpr h.sameDecision⟩

/-- A beat of which the first byte is kept, which is zero if the padding leaves it so. -/
def paddedBeat (padding : BitVec 512) : Beat deployed := ⟨⟨1, 0, 0, 0⟩, padding, true⟩

def wordOne : MatchConf :=
  ⟨true, fun _ => false, fun _ k => if k.val = 0 then ⟨1, BitVec.allOnes 32, 5, 5⟩ else ⟨0, 0, 0, 0⟩⟩

def paddedFrame (padding : BitVec 512) (t : Nat) : Input deployed where
  rx := if t = 0 then some (paddedBeat padding) else none
  nicReady := true
  pspinReady := true
  conf := wordOne
  metaReady := true

theorem kept_paddedBeat {padding padding' : BitVec 512} (h : ∀ n < 8, padding.getLsbD n = padding'.getLsbD n) :
    Kept (paddedBeat padding) (paddedBeat padding') := by
  refine ⟨rfl, rfl, fun k hk n hn => ?_⟩
  have hZero : k = 0 := by
    change (1#64).getLsbD k = true at hk
    simpa using hk
  rw [hZero, Nat.mul_zero, Nat.zero_add]
  exact h n hn

theorem agree_singleton {b b' : Beat p} (h : Kept b b') : Agree Kept [b] [b'] := by
  intro k x y hx hy
  rcases k with - | k
  · rw [← Option.some.inj hx, ← Option.some.inj hy]
    exact h
  · cases hx

/-- Padding in a word that no rule looks at. -/
theorem padding_iff_uninspected :
    ∃ seen seen', (treated (paddedFrame 0) 12)[0]? = some seen ∧
      (treated (paddedFrame (7#512 <<< 64)) 12)[0]? = some seen' ∧
      seen.1.ports = seen'.1.ports ∧ seen.2 = seen'.2 := by
  have hAccepted : acceptedOn (paddedFrame 0) 12 = [paddedBeat 0] := by decide +kernel
  have hAccepted' : acceptedOn (paddedFrame (7#512 <<< 64)) 12 = [paddedBeat (7#512 <<< 64)] := by decide +kernel
  have hSeen : (treated (paddedFrame 0) 12)[0]? = some (⟨[paddedBeat 0], [false]⟩, none) := by decide +kernel
  have hSeen' : (treated (paddedFrame (7#512 <<< 64)) 12)[0]? =
      some (⟨[paddedBeat (7#512 <<< 64)], [false]⟩, none) := by
    decide +kernel
  have hConf : ∀ t, (paddedFrame 0 t).conf = wordOne := fun _ => rfl
  have hConf' : ∀ t, (paddedFrame (7#512 <<< 64) t).conf = wordOne := fun _ => rfl
  have hKept : Agree Kept (acceptedOn (paddedFrame 0) 12) (acceptedOn (paddedFrame (7#512 <<< 64)) 12) := by
    rw [hAccepted, hAccepted']
    exact agree_singleton (kept_paddedBeat (by decide +kernel))
  refine ⟨_, _, hSeen, hSeen', (padding_iff hConf hConf' hKept hSeen hSeen').2 ⟨?_, by decide +kernel⟩⟩
  have hData : ∀ j k, muData deployed wordOne.stored (reading [paddedBeat 0]).matcher j k =
      muData deployed wordOne.stored (reading [paddedBeat (7#512 <<< 64)]).matcher j k := by decide +kernel
  exact funext (fun j => funext (hData j))

/-- Padding in word 1 sends the frame to PsPIN. -/
theorem padding_decides :
    ¬ ∀ (conf : MatchConf) (inputs inputs' : Nat → Input deployed), (∀ t, (inputs t).conf = conf) →
      (∀ t, (inputs' t).conf = conf) → ∀ t t', Agree Kept (acceptedOn inputs t) (acceptedOn inputs' t') →
      ∀ (m : Nat) (seen seen' : Handled deployed × Option (BitVec deployed.tagWidth × Nat)),
        (treated inputs t)[m]? = some seen → (treated inputs' t')[m]? = some seen' →
        seen.1.ports = seen'.1.ports ∧ seen.2 = seen'.2 := by
  intro h
  have hAccepted : acceptedOn (paddedFrame 0) 12 = [paddedBeat 0] := by decide +kernel
  have hAccepted' : acceptedOn (paddedFrame (5#512 <<< 32)) 12 = [paddedBeat (5#512 <<< 32)] := by decide +kernel
  have hKept : Agree Kept (acceptedOn (paddedFrame 0) 12) (acceptedOn (paddedFrame (5#512 <<< 32)) 12) := by
    rw [hAccepted, hAccepted']
    exact agree_singleton (kept_paddedBeat (by decide +kernel))
  have hSeen : (treated (paddedFrame 0) 12)[0]? = some (⟨[paddedBeat 0], [false]⟩, none) := by decide +kernel
  have hSeen' : (treated (paddedFrame (5#512 <<< 32)) 12)[0]? =
      some (⟨[paddedBeat (5#512 <<< 32)], [true]⟩, some (4, 64)) := by decide +kernel
  have hConf : ∀ t, (paddedFrame 0 t).conf = wordOne := fun _ => rfl
  have hConf' : ∀ t, (paddedFrame (5#512 <<< 32) t).conf = wordOne := fun _ => rfl
  have hSame := h _ _ _ hConf hConf' _ _ hKept _ _ _ hSeen hSeen'
  exact absurd hSame.1 (by decide)

end Runs

end FPsPIN.PktMatch
