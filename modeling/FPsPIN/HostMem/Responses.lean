import FPsPIN.HostMem.Strobes

/-!
# Write responses

In the last phase the id and the response code are registered from the status
lines of the DMA engine in every cycle and not only in the one with the status.
If the master is not ready at once, it gets what the lines happen to show one
cycle before it is. The number of responses is right in any case.
-/

namespace FPsPIN.HostMem

open Bytes Config Run

variable {p : Params}

section Cycle

variable (s : State p) (i : Input)

def respTaken : Bool := s.bvalid && i.bready

def statusTaken : Bool := s.stateQ == .waitDmaFin && i.dmaStatusValid

def response : AxiId × Bool := (s.bid, s.bokay)

/-- The response that the status lines call for. -/
def lines : AxiId × Bool := (i.dmaStatusTag.setWidth 8, i.dmaStatusError == 0)

def busy : List (Desc p) := if s.stateQ = .waitDmaFin then [s.desc] else []

def offered : List (AxiId × Bool) := if s.stateQ = .finishAxi then [response s] else []

@[simp] theorem stateQ_step : (step s i).stateQ = stateD s i := by
  rw [step]
  cases hD : stateD s i <;> exact hD

variable {s i}

theorem stateD_eq_waitDmaFin_iff : stateD s i = .waitDmaFin ↔
    (s.stateQ = .issueToDma ∨ s.stateQ = .waitDma) ∧ descTaken s i = true ∨
      s.stateQ = .waitDmaFin ∧ i.dmaStatusValid = false := by
  rw [stateD]
  cases s.stateQ <;> simp [apply_ite (· = Phase.waitDmaFin)]

theorem stateD_eq_finishAxi_iff : stateD s i = .finishAxi ↔
    statusTaken s i = true ∨ s.stateQ = .finishAxi ∧ (i.bready && s.bvalid) = false := by
  rw [stateD, statusTaken]
  cases s.stateQ <;> simp [apply_ite (· = Phase.finishAxi)]

theorem stateD_of_waiting (hPhase : s.stateQ = .finishAxi) (hReady : i.bready = false) :
    stateD s i = .finishAxi := by
  rw [stateD, hPhase, hReady]
  rfl

theorem response_step (h : stateD s i = .finishAxi) : response (step s i) = lines i := by
  rw [step, h]
  rfl

theorem desc_step (h : stateD s i = .waitDmaFin) : (step s i).desc = s.desc := by
  rw [step, h]
  rfl

theorem bvalid_step (h : s.bvalid = decide (s.stateQ = .finishAxi)) :
    (step s i).bvalid = decide ((step s i).stateQ = .finishAxi) := by
  rw [stateQ_step, step]
  cases hD : stateD s i with
  | idle | finishAxi => rfl
  | _ =>
    refine h.trans (decide_eq_false fun hPhase => ?_)
    rw [stateD, hPhase] at hD
    simp only at hD
    split_ifs at hD

theorem busy_step (hDesc : descTaken s i = true → s.stateQ = .issueToDma ∨ s.stateQ = .waitDma) :
    (if statusTaken s i then [s.desc] else []) ++ busy (step s i) =
      busy s ++ if descTaken s i then [s.desc] else [] := by
  by_cases hBusy : s.stateQ = .waitDmaFin
  · have hNone : descTaken s i = false := by
      refine Bool.eq_false_iff.mpr fun hTaken => ?_
      simpa [hBusy] using hDesc hTaken
    cases hStatus : i.dmaStatusValid with
    | true =>
      have hD : stateD s i ≠ .waitDmaFin := fun h => by simpa [hBusy, hStatus] using stateD_eq_waitDmaFin_iff.mp h
      simp [busy, statusTaken, hBusy, hStatus, hNone, hD]
    | false =>
      have hD : stateD s i = .waitDmaFin := stateD_eq_waitDmaFin_iff.mpr (.inr ⟨hBusy, hStatus⟩)
      simp [busy, statusTaken, hBusy, hStatus, hNone, hD, desc_step hD]
  · cases hTaken : descTaken s i with
    | true =>
      have hD : stateD s i = .waitDmaFin := stateD_eq_waitDmaFin_iff.mpr (.inl ⟨hDesc hTaken, hTaken⟩)
      simp [busy, statusTaken, hBusy, hD, desc_step hD]
    | false =>
      have hD : stateD s i ≠ .waitDmaFin := fun h => by simpa [hBusy, hTaken] using stateD_eq_waitDmaFin_iff.mp h
      simp [busy, statusTaken, hBusy, hD]

/-- What is on offer is taken, or replaced by what the status lines show. -/
theorem offered_step (hValid : s.bvalid = decide (s.stateQ = .finishAxi)) :
    (if respTaken s i then [response s] else []) ++ offered (step s i) =
      (if s.stateQ = .finishAxi then [if i.bready then response s else lines i] else []) ++
        if statusTaken s i then [lines i] else [] := by
  by_cases hFin : s.stateQ = .finishAxi
  · have hBvalid : s.bvalid = true := hValid.trans (decide_eq_true hFin)
    have hNone : statusTaken s i = false := by simp [statusTaken, hFin]
    cases hReady : i.bready with
    | true =>
      have hD : stateD s i ≠ .finishAxi := fun h => by
        simpa [hNone, hReady, hBvalid] using stateD_eq_finishAxi_iff.mp h
      simp [offered, respTaken, hBvalid, hReady, hFin, hNone, hD]
    | false =>
      have hD : stateD s i = .finishAxi := stateD_of_waiting hFin hReady
      simp [offered, respTaken, hReady, hFin, hNone, hD, response_step hD]
  · have hBvalid : s.bvalid = false := hValid.trans (decide_eq_false hFin)
    cases hStatus : statusTaken s i with
    | true =>
      have hD : stateD s i = .finishAxi := stateD_eq_finishAxi_iff.mpr (.inl hStatus)
      simp [offered, respTaken, hBvalid, hFin, hD, response_step hD]
    | false =>
      have hD : stateD s i ≠ .finishAxi := fun h => by simpa [hFin, hStatus] using stateD_eq_finishAxi_iff.mp h
      simp [offered, respTaken, hBvalid, hFin, hD]

end Cycle

section Runs

variable (ram : RamAddr p → Byte) (inputs : Nat → Input)

def respsOn (t : Nat) : List (AxiId × Bool) :=
  window (fun u => if respTaken (runAt ram inputs u) (inputs u) then [response (runAt ram inputs u)] else []) 0 t

def completedOn (t : Nat) : List (Desc p × Bool) :=
  window (fun u => if statusTaken (runAt ram inputs u) (inputs u) then
    [((runAt ram inputs u).desc, (inputs u).dmaStatusError == 0)] else []) 0 t

/-- The DMA engine reports a descriptor with its tag. -/
def TagsStatus : Prop :=
  ∀ t, statusTaken (runAt ram inputs t) (inputs t) = true → (inputs t).dmaStatusTag = (runAt ram inputs t).desc.tag

/-- Every party acts again and again. -/
def Fair : Prop := ∀ (w : Wait) (t : Nat), ∃ u, t ≤ u ∧ gives (inputs u) w = true

/-- After a status the lines show the same response as long as the master is not ready. -/
def LinesHeld : Prop :=
  ∀ u t, u < t → statusTaken (runAt ram inputs u) (inputs u) = true →
    (∀ v, u < v → v ≤ t → (inputs v).bready = false) → lines (inputs t) = lines (inputs u)

structure Responses (bursts : Nat → Burst) : Prop where
  /-- One response for each burst: never more than addresses, and as many when the next address is taken. -/
  atMost : ∀ t, (respsOn ram inputs t).length ≤ (awsOn ram inputs t).length
  exactly : ∀ t, awTaken (runAt ram inputs t) (inputs t) = true →
    (respsOn ram inputs t).length = (awsOn ram inputs t).length
  given : Fair inputs → ∀ k, ∃ t, k < (respsOn ram inputs t).length
  /-- It has the id of the burst and the outcome of its descriptor. -/
  right : ∀ t k r, (respsOn ram inputs t)[k]? = some r → ∃ d ok, (completedOn ram inputs t)[k]? = some (d, ok) ∧
    r = ((bursts k).aw.id, ok)
  /-- It does not change while it waits. -/
  stable : ∀ t, (runAt ram inputs t).bvalid = true → (inputs t).bready = false →
    (runAt ram inputs (t + 1)).bvalid = true ∧ response (runAt ram inputs (t + 1)) = response (runAt ram inputs t)

variable {ram inputs} {bursts : Nat → Burst}

theorem run_bvalid (t : Nat) :
    (runAt ram inputs t).bvalid = decide ((runAt ram inputs t).stateQ = .finishAxi) := by
  induction t with
  | zero => rfl
  | succ t ih => exact bvalid_step ih

theorem run_busy_step (h : Carries ram inputs bursts) (t : Nat) :
    (if statusTaken (runAt ram inputs t) (inputs t) then [(runAt ram inputs t).desc] else []) ++
        busy (runAt ram inputs (t + 1)) =
      busy (runAt ram inputs t) ++
        if descTaken (runAt ram inputs t) (inputs t) then [(runAt ram inputs t).desc] else [] := by
  refine busy_step fun hTaken => ?_
  obtain ⟨k, hToDma⟩ := toDma_of_descTaken h hTaken
  exact hToDma.phase

theorem completedOn_append_busy (h : Carries ram inputs bursts) (t : Nat) :
    (completedOn ram inputs t).map Prod.fst ++ busy (runAt ram inputs t) = descsOn ram inputs t := by
  rw [completedOn, map_window]
  refine window_append_queue (fun u => busy (runAt ram inputs u)) rfl (fun u => ?_) t
  rw [← run_busy_step h u]
  cases statusTaken (runAt ram inputs u) (inputs u) <;> rfl

theorem length_respsOn (h : Carries ram inputs bursts) (t : Nat) :
    (respsOn ram inputs t).length + ((busy (runAt ram inputs t)).length + (offered (runAt ram inputs t)).length) =
      (descsOn ram inputs t).length := by
  have hCompleted := congrArg List.length (completedOn_append_busy h t)
  rw [List.length_append, List.length_map] at hCompleted
  have hValid : ∀ u, (runAt ram inputs u).bvalid = decide ((runAt ram inputs u).stateQ = .finishAxi) := run_bvalid
  have hGiven : (respsOn ram inputs t).length + (offered (runAt ram inputs t)).length =
      (completedOn ram inputs t).length := by
    refine length_window_add (fun u => (offered (runAt ram inputs u)).length) rfl (fun u => ?_) t
    have hLaw := congrArg List.length (offered_step (i := inputs u) (hValid u))
    rw [List.length_append, List.length_append] at hLaw
    refine hLaw.trans ?_
    rw [offered]
    congr 1
    · split_ifs <;> rfl
    · split_ifs <;> rfl
  omega

theorem exists_resp_of_offered (hFair : Fair inputs) {t : Nat}
    (hPhase : (runAt ram inputs t).stateQ = .finishAxi) :
    ∃ u, t ≤ u ∧ respTaken (runAt ram inputs u) (inputs u) = true := by
  have hStay : ∀ u, (runAt ram inputs u).stateQ = .finishAxi → ¬ gives (inputs u) .bready = true →
      (runAt ram inputs (u + 1)).stateQ = .finishAxi := by
    intro u hu hNot
    exact (stateQ_step _ _).trans (stateD_of_waiting hu (Bool.eq_false_iff.mpr hNot))
  obtain ⟨u, htu, hu, hReady⟩ := exists_leaving hStay hPhase (hFair .bready t)
  refine ⟨u, htu, ?_⟩
  rw [respTaken, run_bvalid, decide_eq_true hu]
  exact hReady

theorem exists_offered_of_busy (hFair : Fair inputs) {t : Nat}
    (hPhase : (runAt ram inputs t).stateQ = .waitDmaFin) :
    ∃ u, t ≤ u ∧ (runAt ram inputs u).stateQ = .finishAxi := by
  have hStay : ∀ u, (runAt ram inputs u).stateQ = .waitDmaFin → ¬ gives (inputs u) .dmaStatus = true →
      (runAt ram inputs (u + 1)).stateQ = .waitDmaFin := by
    intro u hu hNot
    exact (stateQ_step _ _).trans (stateD_eq_waitDmaFin_iff.mpr (.inr ⟨hu, Bool.eq_false_iff.mpr hNot⟩))
  obtain ⟨u, htu, hu, hStatus⟩ := exists_leaving hStay hPhase (hFair .dmaStatus t)
  have hTaken : statusTaken (runAt ram inputs u) (inputs u) = true := by
    rw [statusTaken, hu]
    exact hStatus
  exact ⟨u + 1, Nat.le_succ_of_le htu, (stateQ_step _ _).trans (stateD_eq_finishAxi_iff.mpr (.inl hTaken))⟩

theorem exists_resp (h : Carries ram inputs bursts) (hFair : Fair inputs) (k : Nat) :
    ∃ t, k < (respsOn ram inputs t).length := by
  obtain ⟨t, ht⟩ := exists_desc (m := k) h fun w t _ => hFair w t
  refine exists_left _ (length_respsOn h) (fun u hOwing => ?_) ht
  have hResp : ∃ v, u ≤ v ∧ respTaken (runAt ram inputs v) (inputs v) = true := by
    by_cases hFin : (runAt ram inputs u).stateQ = .finishAxi
    · exact exists_resp_of_offered hFair hFin
    · have hBusy : (runAt ram inputs u).stateQ = .waitDmaFin := by
        by_contra hNot
        rw [busy, offered, if_neg hNot, if_neg hFin] at hOwing
        exact Nat.lt_irrefl 0 hOwing
      obtain ⟨v, huv, hv⟩ := exists_offered_of_busy hFair hBusy
      obtain ⟨w, hvw, hw⟩ := exists_resp_of_offered hFair hv
      exact ⟨w, Nat.le_trans huv hvw, hw⟩
  obtain ⟨v, huv, hTaken⟩ := hResp
  refine ⟨v, huv, ?_⟩
  rw [if_pos hTaken]
  exact List.cons_ne_nil _ _

theorem response_of_held (hHeld : LinesHeld ram inputs) {u t : Nat} (hut : u < t)
    (hStatus : statusTaken (runAt ram inputs u) (inputs u) = true)
    (hSince : ∀ v, u < v → v < t → (inputs v).bready = false) :
    (runAt ram inputs t).stateQ = .finishAxi ∧ response (runAt ram inputs t) = lines (inputs u) := by
  induction t, hut using Nat.le_induction with
  | base =>
    have hD := stateD_eq_finishAxi_iff.mpr (.inl hStatus)
    exact ⟨(stateQ_step _ _).trans hD, response_step hD⟩
  | succ t hut ih =>
    obtain ⟨hPhase, _⟩ := ih fun v huv hvt => hSince v huv (Nat.lt_succ_of_lt hvt)
    have hD := stateD_of_waiting hPhase (hSince t hut (Nat.lt_succ_self t))
    refine ⟨(stateQ_step _ _).trans hD, (response_step hD).trans ?_⟩
    exact hHeld u t hut hStatus fun v huv hvt => hSince v huv (Nat.lt_succ_of_le hvt)

theorem lines_of_held (hHeld : LinesHeld ram inputs) {t : Nat}
    (hPhase : (runAt ram inputs t).stateQ = .finishAxi) (hReady : (inputs t).bready = false) :
    lines (inputs t) = response (runAt ram inputs t) := by
  have hStep : ∀ u, (runAt ram inputs (u + 1)).stateQ = .finishAxi →
      statusTaken (runAt ram inputs u) (inputs u) = true ∨
        (runAt ram inputs u).stateQ = .finishAxi ∧ ¬ (inputs u).bready = true := by
    intro u hu
    have hD : stateD (runAt ram inputs u) (inputs u) = .finishAxi := (stateQ_step _ _).symm.trans hu
    refine (stateD_eq_finishAxi_iff.mp hD).imp_right fun hWaits => ⟨hWaits.1, ?_⟩
    have hNot := hWaits.2
    rw [run_bvalid, decide_eq_true hWaits.1, Bool.and_true] at hNot
    exact Bool.eq_false_iff.mp hNot
  have hStart : (runAt ram inputs 0).stateQ ≠ .finishAxi := nofun
  obtain ⟨u, hut, hStatus, hSince⟩ :=
    exists_entering (fun u => (runAt ram inputs u).stateQ = .finishAxi) hStart hStep hPhase
  have hWaits : ∀ v, u < v → v < t → (inputs v).bready = false :=
    fun v huv hvt => Bool.eq_false_iff.mpr (hSince v huv hvt)
  rw [(response_of_held hHeld hut hStatus hWaits).2]
  refine hHeld u t hut hStatus fun v huv hvt => ?_
  rcases Nat.lt_or_eq_of_le hvt with hLt | rfl
  · exact hWaits v huv hLt
  · exact hReady

theorem respsOn_append_offered (hTags : TagsStatus ram inputs) (hHeld : LinesHeld ram inputs) (t : Nat) :
    respsOn ram inputs t ++ offered (runAt ram inputs t) =
      (completedOn ram inputs t).map fun c => (c.1.tag.setWidth 8, c.2) := by
  rw [completedOn, map_window]
  refine window_append_queue (fun u => offered (runAt ram inputs u)) rfl (fun u => ?_) t
  refine (offered_step (run_bvalid u)).trans ?_
  congr 1
  · rw [offered]
    refine if_ctx_congr Iff.rfl (fun hPhase => ?_) fun _ => rfl
    cases hReady : (inputs u).bready with
    | true => rfl
    | false => exact congrArg (fun r => [r]) (lines_of_held hHeld hPhase hReady)
  · cases hStatus : statusTaken (runAt ram inputs u) (inputs u) with
    | false => rfl
    | true => exact congrArg (fun tag : BitVec 16 => [(tag.setWidth 8, _)]) (hTags u hStatus)

theorem completed_tag (h : Carries ram inputs bursts) {t k : Nat} {d : Desc p} {ok : Bool}
    (hCompleted : (completedOn ram inputs t)[k]? = some (d, ok)) : d.tag.setWidth 8 = (bursts k).aw.id := by
  have hDesc : (descsOn ram inputs t)[k]? = some d := by
    rw [← completedOn_append_busy h t, List.getElem?_append_left, List.getElem?_map, hCompleted]
    · rfl
    · rw [List.length_map]
      exact (List.getElem?_eq_some_iff.mp hCompleted).1
  have hLt := (List.getElem?_eq_some_iff.mp hDesc).1
  rw [(run_stage h t).2, List.getElem?_map, List.getElem?_range hLt] at hDesc
  cases hDesc
  exact BitVec.setWidth_setWidth_of_le _ (by decide)

theorem held_of_stable (hStable : ∀ t, (runAt ram inputs t).bvalid = true → (inputs t).bready = false →
    response (runAt ram inputs (t + 1)) = response (runAt ram inputs t)) : LinesHeld ram inputs := by
  intro u t hut hStatus hSince
  have hShown : ∀ v, u ≤ v → v ≤ t → (runAt ram inputs (v + 1)).stateQ = .finishAxi ∧
      response (runAt ram inputs (v + 1)) = lines (inputs v) ∧
      response (runAt ram inputs (v + 1)) = lines (inputs u) := by
    intro v huv
    induction v, huv using Nat.le_induction with
    | base =>
      intro _
      have hD := stateD_eq_finishAxi_iff.mpr (.inl hStatus)
      exact ⟨(stateQ_step _ _).trans hD, response_step hD, response_step hD⟩
    | succ v huv ih =>
      intro hvt
      obtain ⟨hPhase, _, hFirst⟩ := ih (Nat.le_of_succ_le hvt)
      have hReady := hSince (v + 1) (Nat.lt_succ_of_le huv) hvt
      have hD := stateD_of_waiting hPhase hReady
      have hValid : (runAt ram inputs (v + 1)).bvalid = true := (run_bvalid _).trans (decide_eq_true hPhase)
      exact ⟨(stateQ_step _ _).trans hD, response_step hD, (hStable _ hValid hReady).trans hFirst⟩
  obtain ⟨_, hLast, hFirst⟩ := hShown t hut.le (Nat.le_refl t)
  exact hLast.symm.trans hFirst

theorem responses_of_held (h : Carries ram inputs bursts) (hTags : TagsStatus ram inputs)
    (hHeld : LinesHeld ram inputs) : Responses ram inputs bursts := by
  refine ⟨fun t => ?_, fun t hAw => ?_, exists_resp h, fun t k r hResp => ?_, fun t hValid hReady => ?_⟩
  · have hLaw := length_respsOn h t
    have hLe := (run_stage h t).1.descs_le
    omega
  · have hLaw := length_respsOn h t
    obtain ⟨hIdle, hEq⟩ := (run_stage h t).1.idle_of_awTaken hAw
    rw [busy, offered, hIdle.phase] at hLaw
    exact hLaw.trans hEq
  · have hLaw := congrArg (·[k]?) (respsOn_append_offered hTags hHeld t)
    simp only [List.getElem?_append_left (List.getElem?_eq_some_iff.mp hResp).1, hResp, List.getElem?_map] at hLaw
    obtain ⟨⟨d, ok⟩, hCompleted, hEq⟩ := Option.map_eq_some_iff.mp hLaw.symm
    refine ⟨d, ok, hCompleted, hEq.symm.trans ?_⟩
    rw [completed_tag h hCompleted]
  · have hPhase : (runAt ram inputs t).stateQ = .finishAxi := of_decide_eq_true ((run_bvalid t).symm.trans hValid)
    have hD := stateD_of_waiting hPhase hReady
    refine ⟨(run_bvalid (t + 1)).trans (decide_eq_true ((stateQ_step _ _).trans hD)), ?_⟩
    exact (response_step hD).trans (lines_of_held hHeld hPhase hReady)

theorem responses_iff (h : Carries ram inputs bursts) (hTags : TagsStatus ram inputs) :
    Responses ram inputs bursts ↔ LinesHeld ram inputs := by
  constructor
  · intro hResponses
    exact held_of_stable fun t hValid hReady => (hResponses.stable t hValid hReady).2
  · exact responses_of_held h hTags

end Runs

section SlowMaster

/-- The master is late by one cycle; the status of the burst is in cycle 6. -/
def slowMaster (held : Bool) (t : Nat) : Input :=
  { spanningInputs t with bready := t != 7, dmaStatusTag := if held || t == 6 then 0x11 else 0 }

theorem slowMaster_carries (held : Bool) :
    Carries (p := ramOf64K) (fun _ => 0) (slowMaster held) fun _ => spanning := by
  refine carries_of_spanning (fun _ => rfl) fun t hValid => ?_
  have ht : t = 2 ∨ t = 3 := by simpa [slowMaster, spanningInputs] using hValid
  rcases ht with rfl | rfl <;> cases held <;> decide +kernel

theorem slowMaster_tagsStatus (held : Bool) : TagsStatus (p := ramOf64K) (fun _ => 0) (slowMaster held) := by
  intro t hStatus
  have ht : t = 6 := by simpa [slowMaster, spanningInputs] using (Bool.and_eq_true_iff.mp hStatus).2
  subst ht
  cases held <;> decide +kernel

theorem responses_iff_slowMaster :
    (Responses (p := ramOf64K) (fun _ => 0) (slowMaster true) (fun _ => spanning) ↔
        LinesHeld (p := ramOf64K) (fun _ => 0) (slowMaster true)) ∧
      respsOn (p := ramOf64K) (fun _ => 0) (slowMaster true) 9 = [(0x11, true)] :=
  ⟨responses_iff (slowMaster_carries true) (slowMaster_tagsStatus true), by decide +kernel⟩

/-- The lines show another tag when the master is late, and the response changes to it. -/
theorem responses_fail :
    ¬ ∀ (p : Params) (ram : RamAddr p → Byte) (inputs : Nat → Input) (bursts : Nat → Burst),
    Carries ram inputs bursts → TagsStatus ram inputs → Responses ram inputs bursts := by
  intro hAll
  have hResponses := hAll ramOf64K (fun _ => 0) (slowMaster false) (fun _ => spanning) (slowMaster_carries false)
    (slowMaster_tagsStatus false)
  have hWaits : (runAt (p := ramOf64K) (fun _ => 0) (slowMaster false) 7).bvalid = true := by decide +kernel
  have hChanged : response (runAt (p := ramOf64K) (fun _ => 0) (slowMaster false) 8) ≠
      response (runAt (p := ramOf64K) (fun _ => 0) (slowMaster false) 7) := by decide +kernel
  exact hChanged (hResponses.stable 7 hWaits rfl).2

end SlowMaster

end FPsPIN.HostMem
