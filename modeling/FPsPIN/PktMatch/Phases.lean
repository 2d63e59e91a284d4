import FPsPIN.PktMatch.Tracking

/-!
# One cycle of the match engine, phase by phase

Each phase hands over the next beat of the current frame or nothing, and
leaves the registers as the track says. The engine stores beats until the
frame or the matcher ends, matches, replays what it stored, and passes the
rest of a longer frame through.
-/

namespace FPsPIN.PktMatch

variable {p : Params}

section Steps

variable {s : State p} {i : Input p}

theorem Unfinished.append {beats : List (Beat p)} {b : Beat p} (h : Unfinished beats) (hb : b.tlast = false) :
    Unfinished (beats ++ [b]) := by
  intro x hx
  rcases List.mem_append.mp hx with hx | hx
  · exact h x hx
  · rw [List.mem_singleton.mp hx, hb]

theorem Track.step_of_not_sent (g : Track p) (h : sent s i = none) :
    g.step s i = ⟨g.done, g.cur ++ (consumed s i).toList, g.out⟩ := by
  rw [Track.step, frameLeaves, h]
  rfl

theorem handsOver_of_not_sent (g : Track p) (h : sent s i = none) : HandsOver s i g := by
  intro x hx
  rw [h] at hx
  cases hx

theorem consumed_of_blocked (hPass : doPass s = false) (hReady : s.bufferedTready = false) : consumed s i = none :=
  (consumed_of_not_pass hPass).trans (received_of_not_ready hReady)

theorem packetMetaValidD_of_stays (hMeta : s.packetMetaValid = false) (h : frameLeaves s i = false) :
    packetMetaValidD s i = false := by
  rw [frameLeaves] at h
  simp [packetMetaValidD, hMeta, h]

theorem packetMetaValidD_of_leaves (hIdle : (s.stateQ == .idle) = false) (hMeta : s.packetMetaValid = false)
    (h : frameLeaves s i = true) : packetMetaValidD s i = s.matchedQ := by
  rw [frameLeaves] at h
  simp [packetMetaValidD, hIdle, hMeta, h]

theorem sending_signals (hPhase : s.stateQ = .send ∨ s.stateQ = .sendWait) (hValid : s.sendTvalid = true) :
    doPass s = false ∧ (s.stateQ == .idle) = false ∧ passthroughD s i = s.passthroughQ ∧
      stateD s i =
        if sendTready s i then (if s.lastIdx == s.matcherIdx then .sendLast else .send) else .sendWait := by
  rcases hPhase with hPhase | hPhase <;> simp [doPass, passthroughD, stateD, hPhase, hValid]

theorem sendLast_signals (hPhase : s.stateQ = .sendLast) (hValid : s.sendTvalid = true) :
    doPass s = false ∧ (s.stateQ == .idle) = false ∧ passthroughD s i = s.passthroughQ ∧
      stateD s i =
        if sendTready s i then (if s.passthroughQ then .passthrough else afterFrame s) else .sendLast := by
  simp [doPass, passthroughD, stateD, hPhase, hValid]

theorem sent_of_passing (hPhase : s.stateQ = .passthrough) :
    sent s i = (consumed s i).map (Prod.mk s.matchedQ) := by
  have hPass : doPass s = true := by rw [doPass, hPhase]; rfl
  rw [sent, consumed, sendComb, sendCombTready, hPass, if_pos rfl, if_pos rfl]
  cases sendTready s i <;> rfl

theorem metadata_signals (hPhase : s.stateQ = .metadata) (hMeta : s.packetMetaValid = true)
    (hValid : s.sendTvalid = false) :
    doPass s = false ∧ sent s i = none ∧ packetMetaValidD s i = (!i.metaReady) ∧
      stateD s i = if i.metaReady then .idle else .metadata := by
  have hPass : doPass s = false := by rw [doPass, hPhase]; rfl
  have hSent := sent_of_not_valid (i := i) hPass hValid
  refine ⟨hPass, hSent, ?_, ?_⟩
  · simp [packetMetaValidD, hPhase, hSent, hMeta]
  · simp only [stateD, hPhase, hMeta, Bool.and_true]

theorem metadata_kept (hPhase : s.stateQ = .metadata) (hMeta : s.packetMetaValid = true)
    (hValid : s.sendTvalid = false) (hReady : i.metaReady = false) :
    packetMetaTag (step s i) = packetMetaTag s ∧ (step s i).packetMetaSize = s.packetMetaSize := by
  obtain ⟨_, hSent, _, hD⟩ := metadata_signals (i := i) hPhase hMeta hValid
  rw [hReady, if_neg Bool.false_ne_true] at hD
  constructor
  · change (verdictQ (outputs s i)).tag = _
    rw [outputs, hD]
    rfl
  · change packetMetaSizeD s i = _
    simp [packetMetaSizeD, hPhase, hSent]

theorem toNat_succ {w : Nat} {x : BitVec w} (h : x.toNat + 1 < 2 ^ w) : (x + 1).toNat = x.toNat + 1 := by
  rw [BitVec.toNat_add]
  change (x.toNat + 1 % 2 ^ w) % 2 ^ w = x.toNat + 1
  rw [Nat.add_mod_mod, Nat.mod_eq_of_lt h]

theorem Filling.recv {cur : List (Beat p)} {b : Beat p} (h : Filling s cur) (hD : stateD s i = .recv)
    (hReceived : received s i = some b) (hLast : b.tlast = false) (hRoom : cur.length + 1 < p.matcherBeats)
    (hIndex : s.matcherIdx.toNat + 1 ≠ 2 ^ p.matcherIdxWidth) (hPass : passthroughD s i = false) :
    Filling (step s i) (cur ++ [b]) ∧ (step s i).bufferedTready = s.bufferedTready := by
  have hOutputs : outputs s i = { storeBeat s b with matcherIdx := s.matcherIdx + 1 } := by
    rw [outputs, hD, hReceived]
  have hMatcher : (outputs s i).matcher = loadData (cur ++ [b]) := by
    rw [hOutputs, ← loadData_append, ← h.matcher, ← h.matcherIdx]
    rfl
  have hSaved : (outputs s i).saved = loadSide (cur ++ [b]) := by
    rw [hOutputs, ← loadSide_append, ← h.saved, ← h.matcherIdx]
    rfl
  have hIdx : (outputs s i).matcherIdx.toNat = (cur ++ [b]).length := by
    have hLt := s.matcherIdx.isLt
    rw [hOutputs, List.length_append, List.length_singleton, ← h.matcherIdx]
    exact toNat_succ (by omega)
  have hReady : (outputs s i).bufferedTready = s.bufferedTready := by
    rw [hOutputs]
    rfl
  refine ⟨⟨h.unfinished.append hLast, hMatcher, hSaved, hIdx, by simpa using hRoom, hPass, ?_, ?_⟩, hReady⟩
  · exact (congrArg State.sendTvalid hOutputs).trans h.sendTvalid
  · exact (congrArg State.sendTlast hOutputs).trans h.sendTlast

theorem Filling.recvLast {cur : List (Beat p)} {b : Beat p} (h : Filling s cur) (hD : stateD s i = .recvLast)
    (hReceived : received s i = some b) (hPass : passthroughD s i = !b.tlast)
    (hFull : b.tlast = false → cur.length + 1 = p.matcherBeats) (hMeta : packetMetaValidD s i = false)
    (hSize : packetMetaSizeD s i = 0) (done : List (Routed p)) : Tracks (step s i) done (cur ++ [b]) 0 := by
  have hOutputs : outputs s i =
      { storeBeat s b with matcherIdx := 0, lastIdx := s.matcherIdx, bufferedTready := false } := by
    rw [outputs, hD, hReceived]
  have hMatcher : (outputs s i).matcher = loadData (cur ++ [b]) := by
    rw [hOutputs, ← loadData_append, ← h.matcher, ← h.matcherIdx]
    rfl
  have hSaved : (outputs s i).saved = loadSide (cur ++ [b]) := by
    rw [hOutputs, ← loadSide_append, ← h.saved, ← h.matcherIdx]
    rfl
  have hLastIdx : (outputs s i).lastIdx.toNat = cur.length := by
    rw [hOutputs, ← h.matcherIdx]
  refine .stored hD ⟨h.unfinished, hMatcher, hSaved, hLastIdx, h.room, hPass, hFull, ?_, hMeta⟩ ?_ ?_ ?_ hSize
  · exact congrArg State.bufferedTready hOutputs
  · exact congrArg State.matcherIdx hOutputs
  · exact (congrArg State.sendTvalid hOutputs).trans h.sendTvalid
  · exact (congrArg State.sendTlast hOutputs).trans h.sendTlast

theorem filling_of_cleared (hD : stateD s i = .idle ∨ stateD s i = .metadata) (hPass : passthroughD s i = false) :
    Filling (step s i) [] ∧ (step s i).bufferedTready = (stateD s i == .idle) := by
  have hOutputs : (outputs s i).matcher = loadData [] ∧ (outputs s i).saved = loadSide [] ∧
      (outputs s i).matcherIdx = 0 ∧ (outputs s i).sendTvalid = false ∧ (outputs s i).sendTlast = false ∧
      (outputs s i).bufferedTready = (stateD s i == .idle) := by
    rcases hD with hD | hD <;> rw [outputs, hD] <;> exact ⟨rfl, rfl, rfl, rfl, rfl, rfl⟩
  obtain ⟨hMatcher, hSaved, hIdx, hValid, hLast, hReady⟩ := hOutputs
  refine ⟨⟨fun b hb => absurd hb List.not_mem_nil, hMatcher, hSaved, ?_,
    p.matcherBeats_pos, hPass, hValid, hLast⟩,
    hReady⟩
  exact (congrArg BitVec.toNat hIdx).trans BitVec.toNat_zero

/-- The track is right after the cycle, and what the cycle hands over is right. -/
def Follows (s : State p) (i : Input p) (g : Track p) : Prop :=
  Tracks (step s i) (g.step s i).done (g.step s i).cur (g.step s i).out ∧ HandsOver s i g

theorem follows_of_not_sent {g : Track p} (hSent : sent s i = none)
    (h : Tracks (step s i) g.done (g.cur ++ (consumed s i).toList) g.out) : Follows s i g := by
  rw [Follows, Track.step_of_not_sent g hSent]
  exact ⟨h, handsOver_of_not_sent g hSent⟩

theorem atLastBeat_iff {cur : List (Beat p)} (h : Filling s cur) :
    atLastBeat s = true ↔ cur.length + 1 = p.matcherBeats := by
  have hRoom := h.room
  rw [atLastBeat, beq_iff_eq, h.matcherIdx]
  omega

theorem Filling.store {cur : List (Beat p)} {b : Beat p} (h : Filling s cur) (hSound : Sound s i)
    (hReady : s.bufferedTready = true) (hReceived : received s i = some b)
    (hD : stateD s i = if b.tlast || atLastBeat s then .recvLast else .recv)
    (hPassD : passthroughD s i = (!b.tlast && atLastBeat s)) (hMeta : packetMetaValidD s i = false)
    (hSize : packetMetaSizeD s i = 0) (done : List (Routed p)) : Tracks (step s i) done (cur ++ [b]) 0 := by
  by_cases hOne : atLastBeat s = true
  · rw [hOne, Bool.or_true, if_pos rfl] at hD
    rw [hOne, Bool.and_true] at hPassD
    exact h.recvLast hD hReceived hPassD (fun _ => (atLastBeat_iff h).mp hOne) hMeta hSize done
  · have hRoom : cur.length + 1 ≠ p.matcherBeats := fun hEq => hOne ((atLastBeat_iff h).mpr hEq)
    rw [Bool.not_eq_true] at hOne
    rw [hOne, Bool.or_false] at hD
    rw [hOne, Bool.and_false] at hPassD
    cases hLast : b.tlast with
    | true =>
      rw [hLast, if_pos rfl] at hD
      exact h.recvLast hD hReceived (hPassD.trans (by rw [hLast]; rfl))
        (fun hNot => absurd (hLast.symm.trans hNot) (by decide)) hMeta hSize done
    | false =>
      rw [hLast, if_neg Bool.false_ne_true] at hD
      have hIndex : s.matcherIdx.toNat + 1 ≠ 2 ^ p.matcherIdxWidth := fun hEnd => by
        have hBeats := hSound.index b hReceived hLast hEnd
        rw [h.matcherIdx] at hBeats
        exact hRoom hBeats
      obtain ⟨hFilling, hReadyD⟩ :=
        h.recv hD hReceived hLast (Nat.lt_of_le_of_ne h.room hRoom) hIndex hPassD
      exact .storing (Or.inl hD) hFilling (hReadyD.trans hReady) hMeta hSize

theorem follows_idle (hPhase : s.stateQ = .idle) (hFilling : Filling s []) (hReady : s.bufferedTready = true)
    (hSound : Sound s i) (done : List (Routed p)) : Follows s i ⟨done, [], 0⟩ := by
  have hPass : doPass s = false := by rw [doPass, hPhase]; rfl
  have hMeta : packetMetaValidD s i = false := by rw [packetMetaValidD, hPhase]; rfl
  have hSize : packetMetaSizeD s i = 0 := by rw [packetMetaSizeD, hPhase]; rfl
  refine follows_of_not_sent (sent_of_not_valid hPass hFilling.sendTvalid) ?_
  rw [consumed_of_not_pass hPass]
  cases hReceived : received s i with
  | none =>
    have hD : stateD s i = .idle := by simp [stateD, hPhase, hReceived]
    have hPassD : passthroughD s i = false := by simp [passthroughD, hPhase, hReceived, hFilling.passthroughQ]
    obtain ⟨hCleared, hReady⟩ := filling_of_cleared (Or.inl hD) hPassD
    exact .idle hD hCleared (hReady.trans (by rw [hD]; rfl)) hMeta
  | some b =>
    -- With a matcher of one beat the frame goes on, so that both orders of the tests agree.
    have hGoesOn : atLastBeat s = true → b.tlast = false := by
      intro hOne
      by_contra hLast
      exact hSound.oneBeat hPhase b hReceived (Bool.not_eq_false _ ▸ hLast) ((atLastBeat_iff hFilling).mp hOne).symm
    refine hFilling.store hSound hReady hReceived ?_ ?_ hMeta hSize done
    · simp only [stateD, hPhase, hReceived]
      cases atLastBeat s <;> cases b.tlast <;> rfl
    · simp only [passthroughD, hPhase, hReceived, hFilling.passthroughQ, Bool.or_false]
      cases hOne : atLastBeat s with
      | false => rw [Bool.and_false]
      | true => rw [hGoesOn hOne]; rfl

theorem storing_signals (hPhase : s.stateQ = .recv ∨ s.stateQ = .recvWait) (hValid : s.sendTvalid = false)
    (hMeta : s.packetMetaValid = false) (hSize : s.packetMetaSize = 0) :
    sent s i = none ∧ consumed s i = received s i ∧ packetMetaValidD s i = false ∧ packetMetaSizeD s i = 0 := by
  have hPass : doPass s = false := by rcases hPhase with hPhase | hPhase <;> rw [doPass, hPhase] <;> rfl
  have hNotIdle : (s.stateQ == .idle) = false := by rcases hPhase with hPhase | hPhase <;> rw [hPhase] <;> rfl
  have hSent := sent_of_not_valid (i := i) hPass hValid
  refine ⟨hSent, consumed_of_not_pass hPass, ?_, ?_⟩
  · simp [packetMetaValidD, hNotIdle, hSent, hMeta]
  · simp [packetMetaSizeD, hNotIdle, hSent, hSize]

theorem storing_waits (hPhase : s.stateQ = .recv ∨ s.stateQ = .recvWait) (hReceived : received s i = none) :
    stateD s i = .recvWait ∧ passthroughD s i = s.passthroughQ ∧ outputs s i = s := by
  have hD : stateD s i = .recvWait := by rcases hPhase with hPhase | hPhase <;> simp [stateD, hPhase, hReceived]
  refine ⟨hD, ?_, ?_⟩
  · rcases hPhase with hPhase | hPhase <;> simp [passthroughD, hPhase, hReceived]
  · rw [outputs, hD]

theorem follows_storing {cur : List (Beat p)} (hPhase : s.stateQ = .recv ∨ s.stateQ = .recvWait)
    (hFilling : Filling s cur) (hReady : s.bufferedTready = true) (hMeta : s.packetMetaValid = false)
    (hSize : s.packetMetaSize = 0) (hSound : Sound s i) (done : List (Routed p)) : Follows s i ⟨done, cur, 0⟩ := by
  obtain ⟨hSent, hConsumed, hMetaD, hSizeD⟩ := storing_signals (i := i) hPhase hFilling.sendTvalid hMeta hSize
  refine follows_of_not_sent hSent ?_
  rw [hConsumed]
  cases hReceived : received s i with
  | none =>
    obtain ⟨hD, hPassD, hOutputs⟩ := storing_waits (i := i) hPhase hReceived
    have hKept : Filling (step s i) cur :=
      ⟨hFilling.unfinished, (congrArg State.matcher hOutputs).trans hFilling.matcher,
        (congrArg State.saved hOutputs).trans hFilling.saved,
        (congrArg (fun x => x.matcherIdx.toNat) hOutputs).trans hFilling.matcherIdx, hFilling.room,
        hPassD.trans hFilling.passthroughQ, (congrArg State.sendTvalid hOutputs).trans hFilling.sendTvalid,
        (congrArg State.sendTlast hOutputs).trans hFilling.sendTlast⟩
    rw [Option.toList, List.append_nil]
    exact .storing (Or.inr hD) hKept ((congrArg State.bufferedTready hOutputs).trans hReady) hMetaD hSizeD
  | some b =>
    refine hFilling.store hSound hReady hReceived ?_ ?_ hMetaD hSizeD done
    · rcases hPhase with hPhase | hPhase <;> simp only [stateD, hPhase, hReceived] <;>
        cases atLastBeat s <;> cases b.tlast <;> rfl
    · rcases hPhase with hPhase | hPhase <;>
        simp only [passthroughD, hPhase, hReceived, hFilling.passthroughQ, Bool.or_false]

theorem Held.keep {body : List (Beat p)} {last : Beat p} (h : Held s body last)
    (hKept : (outputs s i).matcher = s.matcher ∧ (outputs s i).saved = s.saved ∧
      (outputs s i).lastIdx = s.lastIdx ∧ (outputs s i).bufferedTready = s.bufferedTready)
    (hPassD : passthroughD s i = s.passthroughQ) (hMetaD : packetMetaValidD s i = false) :
    Held (step s i) body last where
  unfinished := h.unfinished
  matcher := hKept.1.trans h.matcher
  saved := hKept.2.1.trans h.saved
  lastIdx := (congrArg BitVec.toNat hKept.2.2.1).trans h.lastIdx
  room := h.room
  passthroughQ := hPassD.trans h.passthroughQ
  full := h.full
  bufferedTready := hKept.2.2.2.trans h.bufferedTready
  packetMetaValid := hMetaD

theorem Held.beat {body : List (Beat p)} {last b : Beat p} (h : Held s body last) {k : Nat}
    (hk : (body ++ [last])[k]? = some b) : s.matcher k = b.tdata ∧ s.saved k = b.toSide := by
  rw [h.matcher, h.saved, loadData, loadSide, List.getD_eq_getElem?_getD, List.getD_eq_getElem?_getD,
    List.getElem?_map, List.getElem?_map, hk]
  exact ⟨rfl, rfl⟩

theorem judge_stored {body : List (Beat p)} {last : Beat p} (h : Held s body last) :
    judge s.store (body ++ [last]) = verdict p s.store s.matcher := by
  rw [judge, List.take_of_length_le, h.matcher]
  rw [List.length_append]
  exact h.room

theorem Held.quiet {body : List (Beat p)} {last : Beat p} (h : Held s body last)
    (hPass : doPass s = false) (hIdle : (s.stateQ == .idle) = false) (hSent : sent s i = none) :
    consumed s i = none ∧ packetMetaValidD s i = false ∧ packetMetaSizeD s i = s.packetMetaSize := by
  refine ⟨consumed_of_blocked hPass h.bufferedTready, ?_, ?_⟩
  · simp [packetMetaValidD, hIdle, hSent, h.packetMetaValid]
  · simp [packetMetaSizeD, hIdle, hSent]

theorem judging_outputs (hPhase : s.stateQ = .recvLast) :
    stateD s i = .matching ∧ passthroughD s i = s.passthroughQ ∧
      ((outputs s i).matcherIdx = s.matcherIdx ∧ (outputs s i).sendTvalid = s.sendTvalid ∧
        (outputs s i).sendTlast = s.sendTlast ∧ (outputs s i).store = s.store ∧
        verdictQ (outputs s i) = verdict p s.store s.matcher) := by
  have hD : stateD s i = .matching := by rw [stateD, hPhase]
  refine ⟨hD, by rw [passthroughD, hPhase], ?_⟩
  rw [outputs, hD]
  exact ⟨rfl, rfl, rfl, rfl, rfl⟩

theorem follows_stored {body : List (Beat p)} {last : Beat p} (hPhase : s.stateQ = .recvLast)
    (hHeld : Held s body last) (hIdx : s.matcherIdx = 0) (hValid : s.sendTvalid = false)
    (hLast : s.sendTlast = false) (hSize : s.packetMetaSize = 0) (done : List (Routed p)) :
    Follows s i ⟨done, body ++ [last], 0⟩ := by
  have hPass : doPass s = false := by rw [doPass, hPhase]; rfl
  have hSent := sent_of_not_valid (i := i) hPass hValid
  obtain ⟨hConsumed, hMetaD, hSizeD⟩ := hHeld.quiet (i := i) hPass (by rw [hPhase]; rfl) hSent
  obtain ⟨hD, hPassD, hRegs⟩ := judging_outputs (i := i) hPhase
  refine follows_of_not_sent hSent ?_
  rw [hConsumed, Option.toList, List.append_nil]
  have hKept : (outputs s i).matcher = s.matcher ∧ (outputs s i).saved = s.saved ∧
      (outputs s i).lastIdx = s.lastIdx ∧ (outputs s i).bufferedTready = s.bufferedTready := by
    rw [outputs, hD]
    exact ⟨rfl, rfl, rfl, rfl⟩
  have hHeldD := hHeld.keep hKept hPassD hMetaD
  refine .matching hD hHeldD (hRegs.1.trans hIdx) (hRegs.2.1.trans hValid) (hRegs.2.2.1.trans hLast)
    ⟨?_, fun _ => ?_⟩
  · change verdictQ (outputs s i) = judge (outputs s i).store (body ++ [last])
    rw [hRegs.2.2.2.2, hRegs.2.2.2.1, judge_stored hHeld]
  · change (packetMetaSizeD s i).toNat = _
    rw [hSizeD, hSize, Nat.zero_mul]
    rfl

theorem lastIdx_beq {body : List (Beat p)} {last : Beat p} (h : Held s body last) :
    (s.lastIdx == s.matcherIdx) = decide (body.length = s.matcherIdx.toNat) := by
  rw [← h.lastIdx]
  exact decide_eq_decide.mpr BitVec.toNat_inj.symm

theorem Held.toSend {body : List (Beat p)} {last : Beat p} (h : Held s body last) (hD : stateD s i = .send)
    (hOut : s.matcherIdx.toNat < body.length) (hLast : s.sendTlast = false)
    (hPassD : passthroughD s i = s.passthroughQ) (hMetaD : packetMetaValidD s i = false)
    (hVerdict : verdictQ s = judge s.store (body ++ [last]))
    (hSizeD : s.matchedQ = true → (packetMetaSizeD s i).toNat = s.matcherIdx.toNat * p.beatSize)
    (done : List (Routed p)) : Tracks (step s i) done (body ++ [last]) s.matcherIdx.toNat := by
  have hOutputs : outputs s i = { loadSend s with matcherIdx := s.matcherIdx + 1 } := by rw [outputs, hD]
  have hHeldD : Held (step s i) body last :=
    h.keep (by rw [hOutputs]; exact ⟨rfl, rfl, rfl, rfl⟩) hPassD hMetaD
  have hIdxD : (outputs s i).matcherIdx.toNat = s.matcherIdx.toNat + 1 := by
    have hLt := s.lastIdx.isLt
    rw [h.lastIdx] at hLt
    rw [hOutputs]
    exact toNat_succ (by omega)
  have hLastD : (outputs s i).sendTlast = false := by rw [hOutputs]; exact hLast
  have hBeat : body[s.matcherIdx.toNat]? = some (sendBeat (outputs s i)) := by
    obtain ⟨b, hb⟩ : ∃ b, body[s.matcherIdx.toNat]? = some b := ⟨_, List.getElem?_eq_getElem hOut⟩
    obtain ⟨hData, hSide⟩ := h.beat ((List.getElem?_append_left hOut).trans hb)
    rw [hb, sendBeat, hLastD, hOutputs]
    change some b = some ⟨s.saved s.matcherIdx.toNat, s.matcher s.matcherIdx.toNat, false⟩
    rw [hData, hSide, ← h.unfinished b (List.mem_of_getElem? hb)]
  refine .sending (Or.inl hD) hHeldD hIdxD hOut ?_ hLastD hBeat ⟨?_, hSizeD ∘ Eq.trans ?_⟩
  · change (outputs s i).sendTvalid = true
    rw [hOutputs]
    rfl
  · change verdictQ (outputs s i) = judge (outputs s i).store _
    rw [hOutputs]
    exact hVerdict
  · change s.matchedQ = (outputs s i).matchedQ
    rw [hOutputs]
    rfl

theorem Held.toSendLast {body : List (Beat p)} {last : Beat p} (h : Held s body last) (hD : stateD s i = .sendLast)
    (hIdx : s.matcherIdx.toNat = body.length) (hLast : s.sendTlast = true → last.tlast = true)
    (hPassD : passthroughD s i = s.passthroughQ) (hMetaD : packetMetaValidD s i = false)
    (hVerdict : verdictQ s = judge s.store (body ++ [last]))
    (hSizeD : s.matchedQ = true → (packetMetaSizeD s i).toNat = body.length * p.beatSize)
    (done : List (Routed p)) : Tracks (step s i) done (body ++ [last]) body.length := by
  have hOutputs : outputs s i = { loadSend s with sendTlast := !passthroughD s i || s.sendTlast } := by
    rw [outputs, hD]
  have hHeldD : Held (step s i) body last :=
    h.keep (by rw [hOutputs]; exact ⟨rfl, rfl, rfl, rfl⟩) hPassD hMetaD
  have hBeat : sendBeat (outputs s i) = last := by
    obtain ⟨hData, hSide⟩ := h.beat (List.getElem?_concat_length (l := body) (a := last))
    rw [hOutputs]
    change (⟨s.saved s.matcherIdx.toNat, s.matcher s.matcherIdx.toNat,
      !passthroughD s i || s.sendTlast⟩ : Beat p) = _
    rw [hIdx, hData, hSide, hPassD, h.passthroughQ, Bool.not_not]
    cases hTlast : s.sendTlast with
    | false => rw [Bool.or_false]
    | true => rw [Bool.or_true, ← hLast hTlast]
  refine .sendingLast hD hHeldD ?_ ?_ hBeat ⟨?_, hSizeD ∘ Eq.trans ?_⟩
  · change (outputs s i).matcherIdx.toNat = _
    rw [hOutputs]
    exact hIdx
  · change (outputs s i).sendTvalid = true
    rw [hOutputs]
    rfl
  · change verdictQ (outputs s i) = judge (outputs s i).store _
    rw [hOutputs]
    exact hVerdict
  · change s.matchedQ = (outputs s i).matchedQ
    rw [hOutputs]
    rfl

theorem follows_matching {body : List (Beat p)} {last : Beat p} (hPhase : s.stateQ = .matching)
    (hHeld : Held s body last) (hIdx : s.matcherIdx = 0) (hValid : s.sendTvalid = false)
    (hLast : s.sendTlast = false) (hJudged : Judged s (body ++ [last]) 0) (done : List (Routed p)) :
    Follows s i ⟨done, body ++ [last], 0⟩ := by
  have hPass : doPass s = false := by rw [doPass, hPhase]; rfl
  have hSent := sent_of_not_valid (i := i) hPass hValid
  obtain ⟨hConsumed, hMetaD, hSizeD⟩ := hHeld.quiet (i := i) hPass (by rw [hPhase]; rfl) hSent
  have hD : stateD s i = if s.lastIdx == s.matcherIdx then .sendLast else .send := by rw [stateD, hPhase]
  have hPassD : passthroughD s i = s.passthroughQ := by rw [passthroughD, hPhase]
  have hZero : s.matcherIdx.toNat = 0 := by rw [hIdx]; exact BitVec.toNat_zero
  refine follows_of_not_sent hSent ?_
  rw [hConsumed, Option.toList, List.append_nil]
  rw [lastIdx_beq hHeld, hZero] at hD
  by_cases hSingle : body.length = 0
  · rw [decide_eq_true hSingle, if_pos rfl] at hD
    have hNext := hHeld.toSendLast hD (hZero.trans hSingle.symm)
      (fun hNot => absurd (hLast.symm.trans hNot) (by decide))
      hPassD hMetaD hJudged.verdictQ (fun hMatched => by rw [hSizeD, hJudged.size hMatched, hSingle]) done
    rwa [hSingle] at hNext
  · rw [decide_eq_false hSingle, if_neg Bool.false_ne_true] at hD
    have hNext := hHeld.toSend hD (by omega) hLast hPassD hMetaD hJudged.verdictQ
      (fun hMatched => by rw [hSizeD, hJudged.size hMatched, hZero]) done
    rwa [hZero] at hNext

theorem Judged.sized {cur : List (Beat p)} {out : Nat} (h : Judged s cur out) (hSound : Sound s i)
    (hIdle : (s.stateQ == .idle) = false) (hSent : (sent s i).isSome = true) (hMatched : s.matchedQ = true) :
    (packetMetaSizeD s i).toNat = (out + 1) * p.beatSize := by
  have hFits := hSound.size hMatched hSent
  have hSize := h.size hMatched
  rw [packetMetaSizeD, hIdle, if_neg Bool.false_ne_true, if_pos hSent, BitVec.toNat_add, BitVec.toNat_ofNat,
    Nat.add_mod_mod, Nat.mod_eq_of_lt hFits, hSize, Nat.succ_mul]

theorem follows_sending {body : List (Beat p)} {last : Beat p} {out : Nat}
    (hPhase : s.stateQ = .send ∨ s.stateQ = .sendWait) (hHeld : Held s body last)
    (hIdx : s.matcherIdx.toNat = out + 1) (hOut : out < body.length) (hValid : s.sendTvalid = true)
    (hLast : s.sendTlast = false) (hBeat : body[out]? = some (sendBeat s))
    (hJudged : Judged s (body ++ [last]) out) (hSound : Sound s i) (done : List (Routed p)) :
    Follows s i ⟨done, body ++ [last], out⟩ := by
  obtain ⟨hPass, hIdle, hPassD, hD⟩ := sending_signals (i := i) hPhase hValid
  have hSent := sent_of_valid (i := i) hPass hValid
  cases hTready : sendTready s i with
  | false =>
    rw [hTready, if_neg Bool.false_ne_true] at hSent hD
    obtain ⟨hConsumed, hMetaD, hSizeD⟩ := hHeld.quiet (i := i) hPass hIdle hSent
    have hOutputs : outputs s i = s := by rw [outputs, hD]
    refine follows_of_not_sent hSent ?_
    rw [hConsumed, Option.toList, List.append_nil]
    refine .sending (Or.inr hD) (hHeld.keep (by rw [hOutputs]; exact ⟨rfl, rfl, rfl, rfl⟩) hPassD hMetaD)
      ((congrArg (fun x => x.matcherIdx.toNat) hOutputs).trans hIdx) hOut
      ((congrArg State.sendTvalid hOutputs).trans hValid) ((congrArg State.sendTlast hOutputs).trans hLast)
      (hBeat.trans (congrArg (fun x => some (sendBeat x)) hOutputs).symm) ⟨?_, fun hMatched => ?_⟩
    · change verdictQ (outputs s i) = judge (outputs s i).store _
      rw [hOutputs]
      exact hJudged.verdictQ
    · change (packetMetaSizeD s i).toNat = _
      change (outputs s i).matchedQ = true at hMatched
      rw [hOutputs] at hMatched
      rw [hSizeD, hJudged.size hMatched]
  | true =>
    rw [hTready, if_pos rfl] at hSent hD
    have hConsumed := consumed_of_blocked (i := i) hPass hHeld.bufferedTready
    have hTaken : Track.taken ⟨done, body ++ [last], out⟩ s i = body ++ [last] := by
      rw [Track.taken, hConsumed, Option.toList, List.append_nil]
    have hStays : frameLeaves s i = false := by
      rw [frameLeaves, hSent]
      exact hLast
    have hMetaD := packetMetaValidD_of_stays hHeld.packetMetaValid hStays
    have hSizeD := hJudged.sized hSound hIdle (by rw [hSent]; rfl)
    constructor
    · have hStep : Track.step ⟨done, body ++ [last], out⟩ s i = ⟨done, body ++ [last], out + 1⟩ := by
        rw [Track.step, hStays, if_neg Bool.false_ne_true, hTaken, hSent]
        rfl
      rw [hStep]
      rw [lastIdx_beq hHeld, hIdx] at hD
      by_cases hEnd : body.length = out + 1
      · rw [decide_eq_true hEnd, if_pos rfl] at hD
        have hNext := hHeld.toSendLast hD (hIdx.trans hEnd.symm)
          (fun hNot => absurd (hLast.symm.trans hNot) (by decide)) hPassD hMetaD hJudged.verdictQ
          (fun hMatched => by rw [hSizeD hMatched, hEnd]) done
        rwa [hEnd] at hNext
      · rw [decide_eq_false hEnd, if_neg Bool.false_ne_true] at hD
        have hNext := hHeld.toSend hD (by omega) hLast hPassD hMetaD hJudged.verdictQ
          (fun hMatched => by rw [hSizeD hMatched, hIdx]) done
        rwa [hIdx] at hNext
    · intro x hx
      rw [hSent] at hx
      obtain rfl := Option.some.inj hx
      rw [hTaken]
      refine ⟨(List.getElem?_append_left hOut).trans hBeat, hJudged.verdictQ, fun hTlast => ?_⟩
      exact absurd (hLast.symm.trans hTlast) (by decide)

theorem follows_leaving {g : Track p} {b : Beat p} (hD : stateD s i = afterFrame s)
    (hPassD : passthroughD s i = false) (hIdle : (s.stateQ == .idle) = false)
    (hMeta : s.packetMetaValid = false) (hSent : sent s i = some (s.matchedQ, b)) (hTlast : b.tlast = true)
    (hFrame : IsFrame (g.taken s i)) (hBeat : (g.taken s i)[g.out]? = some b)
    (hCount : g.out + 1 = (g.taken s i).length) (hVerdict : verdictQ s = judge s.store (g.taken s i))
    (hSizeD : s.matchedQ = true → (packetMetaSizeD s i).toNat = (g.taken s i).length * p.beatSize) :
    Follows s i g := by
  have hLeaves : frameLeaves s i = true := by rw [frameLeaves, hSent]; exact hTlast
  have hMetaD := packetMetaValidD_of_leaves hIdle hMeta hLeaves
  constructor
  · rw [Track.step, hLeaves, if_pos rfl]
    have hCleared : stateD s i = .idle ∨ stateD s i = .metadata := by
      rw [hD, afterFrame]
      split_ifs
      · exact Or.inr rfl
      · exact Or.inl rfl
    obtain ⟨hFilling, hReady⟩ := filling_of_cleared hCleared hPassD
    rw [afterFrame] at hD
    cases hMatched : s.matchedQ with
    | false =>
      rw [hMatched, if_neg Bool.false_ne_true] at hD
      exact .idle hD hFilling (hReady.trans (by rw [hD]; rfl)) (hMetaD.trans hMatched)
    | true =>
      rw [hMatched, if_pos rfl] at hD
      refine .metadata hD hFilling (hReady.trans (by rw [hD]; rfl)) (hMetaD.trans hMatched) ?_ ?_ (hSizeD hMatched)
      · rw [Routed.port, ← hVerdict]
        exact hMatched
      · rw [Routed.tag, ← hVerdict]
        change (verdictQ (outputs s i)).tag = _
        rw [outputs, hD]
        rfl
  · intro x hx
    rw [hSent] at hx
    obtain rfl := Option.some.inj hx
    exact ⟨hBeat, hVerdict, fun _ => ⟨hFrame, hCount⟩⟩

theorem follows_goingOn {g : Track p} {b : Beat p} (hD : stateD s i = .passthrough)
    (hPassD : passthroughD s i = true) (hReady : s.bufferedTready = false)
    (hMeta : s.packetMetaValid = false) (hSent : sent s i = some (s.matchedQ, b))
    (hOpen : Unfinished (g.taken s i)) (hLong : p.matcherBeats ≤ (g.taken s i).length)
    (hBeat : (g.taken s i)[g.out]? = some b) (hCount : g.out + 1 = (g.taken s i).length)
    (hVerdict : verdictQ s = judge s.store (g.taken s i))
    (hSizeD : s.matchedQ = true → (packetMetaSizeD s i).toNat = (g.taken s i).length * p.beatSize) :
    Follows s i g := by
  have hTlast : b.tlast = false := hOpen b (List.mem_of_getElem? hBeat)
  have hStays : frameLeaves s i = false := by
    rw [frameLeaves, hSent]
    exact hTlast
  have hOutputs : outputs s i = s := by rw [outputs, hD]
  have hMetaD := packetMetaValidD_of_stays hMeta hStays
  constructor
  · have hStep : g.step s i = ⟨g.done, g.taken s i, (g.taken s i).length⟩ := by
      rw [Track.step, hStays, if_neg Bool.false_ne_true, hSent, ← hCount]
      rfl
    rw [hStep]
    refine .passing hD hOpen hLong hPassD ((congrArg State.bufferedTready hOutputs).trans hReady) hMetaD
      ⟨?_, fun hMatched => hSizeD ?_⟩
    · change verdictQ (outputs s i) = judge (outputs s i).store _
      rw [hOutputs]
      exact hVerdict
    · change (outputs s i).matchedQ = true at hMatched
      rwa [hOutputs] at hMatched
  · intro x hx
    rw [hSent] at hx
    obtain rfl := Option.some.inj hx
    exact ⟨hBeat, hVerdict, fun hEnd => absurd (hTlast.symm.trans hEnd) (by decide)⟩

theorem follows_sendingLast {body : List (Beat p)} {last : Beat p} (hPhase : s.stateQ = .sendLast)
    (hHeld : Held s body last) (hIdx : s.matcherIdx.toNat = body.length) (hValid : s.sendTvalid = true)
    (hBeat : sendBeat s = last) (hJudged : Judged s (body ++ [last]) body.length) (hSound : Sound s i)
    (done : List (Routed p)) : Follows s i ⟨done, body ++ [last], body.length⟩ := by
  obtain ⟨hPass, hIdle, hPassD, hD⟩ := sendLast_signals (i := i) hPhase hValid
  have hSent := sent_of_valid (i := i) hPass hValid
  have hTlast : s.sendTlast = last.tlast := congrArg Beat.tlast hBeat
  rw [hBeat] at hSent
  cases hTready : sendTready s i with
  | false =>
    rw [hTready, if_neg Bool.false_ne_true] at hSent hD
    obtain ⟨hConsumed, hMetaD, hSizeD⟩ := hHeld.quiet (i := i) hPass hIdle hSent
    refine follows_of_not_sent hSent ?_
    rw [hConsumed, Option.toList, List.append_nil]
    exact hHeld.toSendLast hD hIdx (fun h => hTlast.symm.trans h) hPassD hMetaD hJudged.verdictQ
      (fun hMatched => by rw [hSizeD, hJudged.size hMatched]) done
  | true =>
    rw [hTready, if_pos rfl] at hSent hD
    have hSizeD := hJudged.sized hSound hIdle (by rw [hSent]; rfl)
    have hConsumed := consumed_of_blocked (i := i) hPass hHeld.bufferedTready
    have hTaken : Track.taken ⟨done, body ++ [last], body.length⟩ s i = body ++ [last] := by
      rw [Track.taken, hConsumed, Option.toList, List.append_nil]
    have hLength : (body ++ [last]).length = body.length + 1 := by rw [List.length_append, List.length_singleton]
    cases hGoesOn : last.tlast with
    | true =>
      -- The whole frame was stored.
      rw [hHeld.passthroughQ, hGoesOn] at hD
      refine follows_leaving hD (hPassD.trans (by rw [hHeld.passthroughQ, hGoesOn]; rfl)) hIdle hHeld.packetMetaValid
        hSent hGoesOn ?_ ?_ ?_ ?_ ?_
      · rw [hTaken]
        exact ⟨body, last, rfl, hHeld.unfinished, hGoesOn⟩
      · rw [hTaken]
        exact List.getElem?_concat_length
      · rw [hTaken, hLength]
      · rw [hTaken]
        exact hJudged.verdictQ
      · rw [hTaken, hLength]
        exact hSizeD
    | false =>
      -- The frame goes on, and its other beats are passed through.
      rw [hHeld.passthroughQ, hGoesOn] at hD
      refine follows_goingOn hD (hPassD.trans (by rw [hHeld.passthroughQ, hGoesOn]; rfl)) hHeld.bufferedTready
        hHeld.packetMetaValid hSent ?_ ?_ ?_ ?_ ?_ ?_
      · rw [hTaken]
        exact hHeld.unfinished.append hGoesOn
      · rw [hTaken, hLength, hHeld.full hGoesOn]
      · rw [hTaken]
        exact List.getElem?_concat_length
      · rw [hTaken, hLength]
      · rw [hTaken]
        exact hJudged.verdictQ
      · rw [hTaken, hLength]
        exact hSizeD

theorem judge_append {cur : List (Beat p)} (h : p.matcherBeats ≤ cur.length) (rules : RuleStore) (b : Beat p) :
    judge rules (cur ++ [b]) = judge rules cur := by
  rw [judge, judge, List.take_append_of_le_length h]

theorem follows_passing {cur : List (Beat p)} (hPhase : s.stateQ = .passthrough) (hOpen : Unfinished cur)
    (hLong : p.matcherBeats ≤ cur.length) (hPassQ : s.passthroughQ = true) (hReady : s.bufferedTready = false)
    (hMeta : s.packetMetaValid = false) (hJudged : Judged s cur cur.length) (hSound : Sound s i)
    (done : List (Routed p)) : Follows s i ⟨done, cur, cur.length⟩ := by
  have hIdle : (s.stateQ == .idle) = false := by rw [hPhase]; rfl
  have hSent := sent_of_passing (i := i) hPhase
  cases hBeat : consumed s i with
  | none =>
    rw [hBeat, Option.map_none] at hSent
    have hD : stateD s i = .passthrough := by simp [stateD, hPhase, hSent]
    have hPassD : passthroughD s i = s.passthroughQ := by simp [passthroughD, hPhase, hSent]
    have hOutputs : outputs s i = s := by rw [outputs, hD]
    have hMetaD : packetMetaValidD s i = false := by simp [packetMetaValidD, hIdle, hSent, hMeta]
    have hSizeD : packetMetaSizeD s i = s.packetMetaSize := by simp [packetMetaSizeD, hIdle, hSent]
    refine follows_of_not_sent hSent ?_
    rw [hBeat, Option.toList, List.append_nil]
    refine .passing hD hOpen hLong (hPassD.trans hPassQ)
      ((congrArg State.bufferedTready hOutputs).trans hReady) hMetaD ⟨?_, fun hMatched => ?_⟩
    · change verdictQ (outputs s i) = judge (outputs s i).store _
      rw [hOutputs]
      exact hJudged.verdictQ
    · change (outputs s i).matchedQ = true at hMatched
      rw [hOutputs] at hMatched
      change (packetMetaSizeD s i).toNat = _
      rw [hSizeD, hJudged.size hMatched]
  | some b =>
    rw [hBeat, Option.map_some] at hSent
    have hTaken : Track.taken ⟨done, cur, cur.length⟩ s i = cur ++ [b] := by rw [Track.taken, hBeat, Option.toList]
    have hLength : (cur ++ [b]).length = cur.length + 1 := by rw [List.length_append, List.length_singleton]
    have hSizeD := hJudged.sized hSound hIdle (by rw [hSent]; rfl)
    have hVerdict : verdictQ s = judge s.store (cur ++ [b]) := by
      rw [judge_append hLong]
      exact hJudged.verdictQ
    cases hTlast : b.tlast with
    | true =>
      refine follows_leaving (b := b) (by simp [stateD, hPhase, hSent, hTlast])
        (by simp [passthroughD, hPhase, hSent, hTlast]) hIdle hMeta hSent hTlast ?_ ?_ ?_ ?_ ?_
      · rw [hTaken]
        exact ⟨cur, b, rfl, hOpen, hTlast⟩
      · rw [hTaken]
        exact List.getElem?_concat_length
      · rw [hTaken, hLength]
      · rwa [hTaken]
      · rw [hTaken, hLength]
        exact hSizeD
    | false =>
      refine follows_goingOn (b := b) (by simp [stateD, hPhase, hSent, hTlast])
        (by simp [passthroughD, hPhase, hSent, hTlast, hPassQ]) hReady hMeta hSent ?_ ?_ ?_ ?_ ?_ ?_
      · rw [hTaken]
        exact hOpen.append hTlast
      · rw [hTaken, hLength]
        omega
      · rw [hTaken]
        exact List.getElem?_concat_length
      · rw [hTaken, hLength]
      · rwa [hTaken]
      · rw [hTaken, hLength]
        exact hSizeD

theorem follows_metadata {f : Routed p} (hPhase : s.stateQ = .metadata) (hFilling : Filling s [])
    (hReady : s.bufferedTready = false) (hMeta : s.packetMetaValid = true) (hPort : f.port = true)
    (hTag : packetMetaTag s = f.tag) (hSize : s.packetMetaSize.toNat = f.size) (done : List (Routed p)) :
    Follows s i ⟨done ++ [f], [], 0⟩ := by
  obtain ⟨hPass, hSent, hMetaD, hD⟩ := metadata_signals (i := i) hPhase hMeta hFilling.sendTvalid
  have hConsumed := consumed_of_blocked (i := i) hPass hReady
  have hPassD : passthroughD s i = false := by rw [passthroughD, hPhase]; exact hFilling.passthroughQ
  refine follows_of_not_sent hSent ?_
  rw [hConsumed]
  cases hTaken : i.metaReady with
  | true =>
    rw [hTaken, if_pos rfl] at hD
    obtain ⟨hCleared, hReadyD⟩ := filling_of_cleared (Or.inl hD) hPassD
    exact .idle hD hCleared (hReadyD.trans (by rw [hD]; rfl)) (hMetaD.trans (by rw [hTaken]; rfl))
  | false =>
    rw [hTaken, if_neg Bool.false_ne_true] at hD
    obtain ⟨hCleared, hReadyD⟩ := filling_of_cleared (Or.inr hD) hPassD
    obtain ⟨hTagD, hSizeD⟩ := metadata_kept hPhase hMeta hFilling.sendTvalid hTaken
    exact .metadata hD hCleared (hReadyD.trans (by rw [hD]; rfl)) (hMetaD.trans (by rw [hTaken]; rfl)) hPort
      (hTagD.trans hTag) ((congrArg BitVec.toNat hSizeD).trans hSize)

theorem tracks_step {g : Track p} (h : Tracks s g.done g.cur g.out) (hSound : Sound s i) : Follows s i g := by
  obtain ⟨done, cur, out⟩ := g
  change Tracks s done cur out at h
  cases h with
  | idle hPhase hFilling hReady hMeta => exact follows_idle hPhase hFilling hReady hSound done
  | storing hPhase hFilling hReady hMeta hSize =>
    exact follows_storing hPhase hFilling hReady hMeta hSize hSound done
  | stored hPhase hHeld hIdx hValid hLast hSize => exact follows_stored hPhase hHeld hIdx hValid hLast hSize done
  | matching hPhase hHeld hIdx hValid hLast hJudged =>
    exact follows_matching hPhase hHeld hIdx hValid hLast hJudged done
  | sending hPhase hHeld hIdx hOut hValid hLast hBeat hJudged =>
    exact follows_sending hPhase hHeld hIdx hOut hValid hLast hBeat hJudged hSound done
  | sendingLast hPhase hHeld hIdx hValid hBeat hJudged =>
    exact follows_sendingLast hPhase hHeld hIdx hValid hBeat hJudged hSound done
  | passing hPhase hOpen hLong hPass hReady hMeta hJudged =>
    exact follows_passing hPhase hOpen hLong hPass hReady hMeta hJudged hSound done
  | metadata hPhase hFilling hReady hMeta hPort hTag hSize =>
    exact follows_metadata hPhase hFilling hReady hMeta hPort hTag hSize _

theorem tracks_init (conf : MatchConf) : Tracks (init p conf) [] [] 0 :=
  .idle rfl ⟨fun _ hb => absurd hb List.not_mem_nil, rfl, rfl, BitVec.toNat_zero,
    p.matcherBeats_pos, rfl, rfl, rfl⟩ rfl rfl

end Steps

end FPsPIN.PktMatch
