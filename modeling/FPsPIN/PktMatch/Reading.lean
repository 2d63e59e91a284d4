import FPsPIN.PktMatch.Stream

/-!
# What decides the outcome of a frame

The outcome of a frame depends on the matcher at the end of the storing phases
and on the number of beats that go out. Both are computed here from the beats
alone, for every choice of the parameters: the matcher index may run around
before the frame or the matcher ends, and then older beats are overwritten. In
each phase the registers that matter for the outcome are those of this
computation. What the registers hold of an earlier frame does not appear.
-/

namespace FPsPIN.PktMatch

variable {p : Params}

/-- What the engine has made of the beats of the current frame. -/
inductive Reading (p : Params) where
  | storing (matcher : Nat → BitVec p.dataWidth) (idx : BitVec p.matcherIdxWidth)
  /-- The matcher is complete; so many beats go out so far, and possibly more. -/
  | held (matcher : Nat → BitVec p.dataWidth) (count : Nat) (more : Bool)

namespace Reading

def start : Reading p := .storing (fun _ => 0) 0

def matcher : Reading p → Nat → BitVec p.dataWidth
  | .storing matcher _ => matcher
  | .held matcher _ _ => matcher

def count : Reading p → Nat
  | .storing _ _ => 0
  | .held _ count _ => count

/-- The frame has been read. -/
def complete : Reading p → Bool
  | .storing _ _ => false
  | .held _ _ more => !more

/-- With a matcher of one beat the first beat does not end the frame, even with tlast. -/
def take : Reading p → Beat p → Reading p
  | .storing matcher idx, b =>
    if b.tlast || idx.toNat == p.matcherBeats - 1 then
      .held (Function.update matcher idx.toNat b.tdata) (idx.toNat + 1) (p.matcherBeats == 1 || !b.tlast)
    else .storing (Function.update matcher idx.toNat b.tdata) (idx + 1)
  | .held matcher count _, b => .held matcher (count + 1) (!b.tlast)

def takes (r : Reading p) (b : Option (Beat p)) : Reading p := b.toList.foldl take r

end Reading

def reading (beats : List (Beat p)) : Reading p := beats.foldl Reading.take .start

theorem reading_append (beats : List (Beat p)) (b : Option (Beat p)) :
    reading (beats ++ b.toList) = (reading beats).takes b := List.foldl_append

section Registers

variable (s : State p)

structure Storing (matcher : Nat → BitVec p.dataWidth) (idx : BitVec p.matcherIdxWidth) : Prop where
  matcher : s.matcher = matcher
  matcherIdx : s.matcherIdx = idx
  passthroughQ : s.passthroughQ = false
  sendTvalid : s.sendTvalid = false
  sendTlast : s.sendTlast = false

/-- So many stored beats go out, and beats behind them if the frame goes on. -/
structure Replaying (count : Nat) (more : Bool) : Prop where
  lastIdx : s.lastIdx.toNat + 1 = count
  passthroughQ : s.passthroughQ = more
  bufferedTready : s.bufferedTready = false
  packetMetaValid : s.packetMetaValid = false

structure Decided (matcher : Nat → BitVec p.dataWidth) (out : Nat) : Prop where
  verdictQ : verdictQ s = verdict p s.store matcher
  size : s.packetMetaSize = BitVec.ofNat 32 (out * p.beatSize)

/-- The registers in each phase, with the ports of the beats that have left. -/
inductive Reads : Reading p → List Bool → Prop
  | idle (hPhase : s.stateQ = .idle) (hStoring : Storing s (fun _ => 0) 0) (hReady : s.bufferedTready = true)
      (hMeta : s.packetMetaValid = false) : Reads .start []
  | storing {matcher idx} (hPhase : s.stateQ = .recv ∨ s.stateQ = .recvWait) (hStoring : Storing s matcher idx)
      (hBeats : p.matcherBeats ≠ 1) (hReady : s.bufferedTready = true) (hMeta : s.packetMetaValid = false)
      (hSize : s.packetMetaSize = 0) : Reads (.storing matcher idx) []
  | stored {matcher count more} (hPhase : s.stateQ = .recvLast) (hMatcher : s.matcher = matcher)
      (hReplaying : Replaying s count more) (hIdx : s.matcherIdx = 0) (hValid : s.sendTvalid = false)
      (hLast : s.sendTlast = false) (hSize : s.packetMetaSize = 0) : Reads (.held matcher count more) []
  | matching {matcher count more} (hPhase : s.stateQ = .matching) (hReplaying : Replaying s count more)
      (hIdx : s.matcherIdx = 0) (hValid : s.sendTvalid = false) (hLast : s.sendTlast = false)
      (hDecided : Decided s matcher 0) : Reads (.held matcher count more) []
  | sending {matcher count more out} (hPhase : s.stateQ = .send ∨ s.stateQ = .sendWait)
      (hReplaying : Replaying s count more) (hIdx : s.matcherIdx.toNat = out + 1) (hOut : out + 1 < count)
      (hValid : s.sendTvalid = true) (hLast : s.sendTlast = false) (hDecided : Decided s matcher out) :
      Reads (.held matcher count more) (List.replicate out s.matchedQ)
  | sendingLast {matcher out more} (hPhase : s.stateQ = .sendLast) (hReplaying : Replaying s (out + 1) more)
      (hIdx : s.matcherIdx.toNat = out) (hValid : s.sendTvalid = true) (hLast : s.sendTlast = !more)
      (hDecided : Decided s matcher out) :
      Reads (.held matcher (out + 1) more) (List.replicate out s.matchedQ)
  | passing {matcher out} (hPhase : s.stateQ = .passthrough) (hPass : s.passthroughQ = true)
      (hReady : s.bufferedTready = false) (hMeta : s.packetMetaValid = false) (hDecided : Decided s matcher out) :
      Reads (.held matcher out true) (List.replicate out s.matchedQ)
  | metadata (hPhase : s.stateQ = .metadata) (hStoring : Storing s (fun _ => 0) 0)
      (hReady : s.bufferedTready = false) (hMeta : s.packetMetaValid = true) : Reads .start []

end Registers

section Cycle

variable (s : State p) (i : Input p)

/-- The cycle in which a frame leaves: where its beats went and what its metadata word will be. -/
structure Leaves (r : Reading p) (ports : List Bool) : Prop where
  complete : r.complete = true
  verdictQ : verdictQ s = verdict p s.store r.matcher
  ports : ports = List.replicate r.count s.matchedQ
  valid : (step s i).packetMetaValid = s.matchedQ
  tag : packetMetaTag (step s i) = packetMetaTag s
  size : (step s i).packetMetaSize = BitVec.ofNat 32 (r.count * p.beatSize)

def portsWith (ports : List Bool) : List Bool := ports ++ (sent s i).toList.map Prod.fst

def SendingNext : Prop :=
  stateD s i = .send ∨ stateD s i = .sendWait ∨ stateD s i = .sendLast ∨ stateD s i = .passthrough

/-- What a cycle makes of the reading. -/
def Moves (r : Reading p) (ports : List Bool) : Prop :=
  if frameLeaves s i then
    Reads (step s i) .start [] ∧ Leaves s i (r.takes (consumed s i)) (portsWith s i ports)
  else Reads (step s i) (r.takes (consumed s i)) (portsWith s i ports)

end Cycle

section Steps

variable {s : State p} {i : Input p}

theorem moves_of_not_sent {r : Reading p} {ports : List Bool} (hSent : sent s i = none)
    (h : Reads (step s i) (r.takes (consumed s i)) ports) : Moves s i r ports := by
  have hStays : frameLeaves s i = false := by rw [frameLeaves, hSent]; rfl
  rw [Moves, hStays, if_neg Bool.false_ne_true, portsWith, hSent, Option.toList, List.map_nil, List.append_nil]
  exact h

theorem storing_of_cleared (hD : stateD s i = .idle ∨ stateD s i = .metadata)
    (hPassD : passthroughD s i = false) :
    Storing (step s i) (fun _ => 0) 0 ∧ (step s i).bufferedTready = (stateD s i == .idle) := by
  obtain ⟨hFilling, hReady⟩ := filling_of_cleared hD hPassD
  refine ⟨⟨hFilling.matcher, BitVec.eq_of_toNat_eq ?_, hFilling.passthroughQ, hFilling.sendTvalid,
    hFilling.sendTlast⟩, hReady⟩
  rw [hFilling.matcherIdx]
  rfl

theorem Storing.store {matcher : Nat → BitVec p.dataWidth} {idx : BitVec p.matcherIdxWidth} {b : Beat p}
    (h : Storing s matcher idx) (hReady : s.bufferedTready = true) (hReceived : received s i = some b)
    (hD : stateD s i = if b.tlast || atLastBeat s then .recvLast else .recv)
    (hPassD : passthroughD s i = (atLastBeat s && (p.matcherBeats == 1 || !b.tlast)))
    (hBeats : atLastBeat s = false → p.matcherBeats ≠ 1) (hMetaD : packetMetaValidD s i = false)
    (hSizeD : packetMetaSizeD s i = 0) : Reads (step s i) ((Reading.storing matcher idx).take b) [] := by
  have hAt : (idx.toNat == p.matcherBeats - 1) = atLastBeat s := by rw [atLastBeat, h.matcherIdx]
  have hMatcher : (storeBeat s b).matcher = Function.update matcher idx.toNat b.tdata := by
    rw [← h.matcher, ← h.matcherIdx]
    rfl
  rw [Reading.take, hAt]
  split_ifs at hD ⊢ with hEnds
  · have hOutputs : outputs s i =
        { storeBeat s b with matcherIdx := 0, lastIdx := s.matcherIdx, bufferedTready := false } := by
      rw [outputs, hD, hReceived]
    have hMore : passthroughD s i = (p.matcherBeats == 1 || !b.tlast) := by
      rw [hPassD]
      cases hLast : atLastBeat s with
      | true => rw [Bool.true_and]
      | false =>
        rw [hLast, Bool.or_false] at hEnds
        rw [hEnds, beq_false_of_ne (hBeats hLast)]
        rfl
    refine .stored hD ((congrArg State.matcher hOutputs).trans hMatcher) ⟨?_, hMore, ?_, hMetaD⟩ ?_ ?_ ?_ hSizeD
    · change (outputs s i).lastIdx.toNat + 1 = _
      rw [hOutputs, ← h.matcherIdx]
    · exact congrArg State.bufferedTready hOutputs
    · exact congrArg State.matcherIdx hOutputs
    · exact (congrArg State.sendTvalid hOutputs).trans h.sendTvalid
    · exact (congrArg State.sendTlast hOutputs).trans h.sendTlast
  · have hNot : atLastBeat s = false := (Bool.or_eq_false_iff.mp (Bool.not_eq_true _ ▸ hEnds)).2
    have hOutputs : outputs s i = { storeBeat s b with matcherIdx := s.matcherIdx + 1 } := by
      rw [outputs, hD, hReceived]
    have hStoring : Storing (step s i) (Function.update matcher idx.toNat b.tdata) (idx + 1) := by
      refine ⟨(congrArg State.matcher hOutputs).trans hMatcher, ?_, ?_, ?_, ?_⟩
      · rw [← h.matcherIdx]
        exact congrArg State.matcherIdx hOutputs
      · change passthroughD s i = false
        rw [hPassD, hNot, Bool.false_and]
      · exact (congrArg State.sendTvalid hOutputs).trans h.sendTvalid
      · exact (congrArg State.sendTlast hOutputs).trans h.sendTlast
    exact .storing (Or.inl hD) hStoring (hBeats hNot) ((congrArg State.bufferedTready hOutputs).trans hReady)
      hMetaD hSizeD

theorem moves_idle (hPhase : s.stateQ = .idle) (hStoring : Storing s (fun _ => 0) 0)
    (hReady : s.bufferedTready = true) : Moves s i .start [] := by
  have hPass : doPass s = false := by rw [doPass, hPhase]; rfl
  have hMetaD : packetMetaValidD s i = false := by rw [packetMetaValidD, hPhase]; rfl
  have hSizeD : packetMetaSizeD s i = 0 := by rw [packetMetaSizeD, hPhase]; rfl
  have hFirst : atLastBeat s = (p.matcherBeats == 1) := by
    have hPos := p.matcherBeats_pos
    rw [atLastBeat, hStoring.matcherIdx]
    change (0 % 2 ^ _ == _) = _
    rw [Nat.zero_mod, Bool.eq_iff_iff, beq_iff_eq, beq_iff_eq]
    omega
  refine moves_of_not_sent (sent_of_not_valid hPass hStoring.sendTvalid) ?_
  rw [consumed_of_not_pass hPass]
  cases hReceived : received s i with
  | none =>
    have hD : stateD s i = .idle := by simp [stateD, hPhase, hReceived]
    have hPassD : passthroughD s i = false := by simp [passthroughD, hPhase, hReceived, hStoring.passthroughQ]
    obtain ⟨hCleared, hReadyD⟩ := storing_of_cleared (Or.inl hD) hPassD
    exact .idle hD hCleared (hReadyD.trans (by rw [hD]; rfl)) hMetaD
  | some b =>
    refine hStoring.store hReady hReceived ?_ ?_ ?_ hMetaD hSizeD
    · simp only [stateD, hPhase, hReceived]
      cases atLastBeat s <;> cases b.tlast <;> rfl
    · simp only [passthroughD, hPhase, hReceived, hStoring.passthroughQ, Bool.or_false, hFirst]
      cases p.matcherBeats == 1 <;> rfl
    · intro hNot
      rw [hFirst] at hNot
      exact ne_of_beq_false hNot

theorem moves_storing {matcher : Nat → BitVec p.dataWidth} {idx : BitVec p.matcherIdxWidth}
    (hPhase : s.stateQ = .recv ∨ s.stateQ = .recvWait) (hStoring : Storing s matcher idx)
    (hBeats : p.matcherBeats ≠ 1) (hReady : s.bufferedTready = true) (hMeta : s.packetMetaValid = false)
    (hSize : s.packetMetaSize = 0) : Moves s i (.storing matcher idx) [] := by
  obtain ⟨hSent, hConsumed, hMetaD, hSizeD⟩ := storing_signals (i := i) hPhase hStoring.sendTvalid hMeta hSize
  refine moves_of_not_sent hSent ?_
  rw [hConsumed]
  cases hReceived : received s i with
  | none =>
    obtain ⟨hD, hPassD, hOutputs⟩ := storing_waits (i := i) hPhase hReceived
    have hKept : Storing (step s i) matcher idx :=
      ⟨(congrArg State.matcher hOutputs).trans hStoring.matcher,
        (congrArg State.matcherIdx hOutputs).trans hStoring.matcherIdx, hPassD.trans hStoring.passthroughQ,
        (congrArg State.sendTvalid hOutputs).trans hStoring.sendTvalid,
        (congrArg State.sendTlast hOutputs).trans hStoring.sendTlast⟩
    exact .storing (Or.inr hD) hKept hBeats ((congrArg State.bufferedTready hOutputs).trans hReady) hMetaD hSizeD
  | some b =>
    refine hStoring.store hReady hReceived ?_ ?_ (fun _ => hBeats) hMetaD hSizeD
    · rcases hPhase with hPhase | hPhase <;> simp only [stateD, hPhase, hReceived] <;>
        cases atLastBeat s <;> cases b.tlast <;> rfl
    · rw [beq_false_of_ne hBeats, Bool.false_or, Bool.and_comm]
      rcases hPhase with hPhase | hPhase <;>
        simp only [passthroughD, hPhase, hReceived, hStoring.passthroughQ, Bool.or_false]

theorem Replaying.keep {count : Nat} {more : Bool} (h : Replaying s count more)
    (hKept : (outputs s i).lastIdx = s.lastIdx ∧ (outputs s i).bufferedTready = s.bufferedTready)
    (hPassD : passthroughD s i = s.passthroughQ) (hMetaD : packetMetaValidD s i = false) :
    Replaying (step s i) count more where
  lastIdx := (congrArg (fun x => x.toNat + 1) hKept.1).trans h.lastIdx
  passthroughQ := hPassD.trans h.passthroughQ
  bufferedTready := hKept.2.trans h.bufferedTready
  packetMetaValid := hMetaD

theorem Replaying.quiet {count : Nat} {more : Bool} (h : Replaying s count more) (hPass : doPass s = false)
    (hIdle : (s.stateQ == .idle) = false) (hSent : sent s i = none) :
    consumed s i = none ∧ packetMetaValidD s i = false ∧ packetMetaSizeD s i = s.packetMetaSize := by
  refine ⟨consumed_of_blocked hPass h.bufferedTready, ?_, ?_⟩
  · simp [packetMetaValidD, hIdle, hSent, h.packetMetaValid]
  · simp [packetMetaSizeD, hIdle, hSent]

theorem moves_stored {matcher : Nat → BitVec p.dataWidth} {count : Nat} {more : Bool}
    (hPhase : s.stateQ = .recvLast) (hMatcher : s.matcher = matcher) (hReplaying : Replaying s count more)
    (hIdx : s.matcherIdx = 0) (hValid : s.sendTvalid = false) (hLast : s.sendTlast = false)
    (hSize : s.packetMetaSize = 0) : Moves s i (.held matcher count more) [] := by
  have hPass : doPass s = false := by rw [doPass, hPhase]; rfl
  have hSent := sent_of_not_valid (i := i) hPass hValid
  obtain ⟨hConsumed, hMetaD, hSizeD⟩ := hReplaying.quiet (i := i) hPass (by rw [hPhase]; rfl) hSent
  obtain ⟨hD, hPassD, hRegs⟩ := judging_outputs (i := i) hPhase
  refine moves_of_not_sent hSent ?_
  rw [hConsumed]
  refine .matching hD (hReplaying.keep (by rw [outputs, hD]; exact ⟨rfl, rfl⟩) hPassD hMetaD) (hRegs.1.trans hIdx)
    (hRegs.2.1.trans hValid) (hRegs.2.2.1.trans hLast) ⟨?_, ?_⟩
  · change verdictQ (outputs s i) = verdict p (outputs s i).store matcher
    rw [hRegs.2.2.2.2, hRegs.2.2.2.1, hMatcher]
  · change packetMetaSizeD s i = _
    rw [hSizeD, hSize, Nat.zero_mul]
    rfl

theorem Replaying.lastIdx_beq {count : Nat} {more : Bool} (h : Replaying s count more) :
    (s.lastIdx == s.matcherIdx) = decide (count = s.matcherIdx.toNat + 1) := by
  rw [← h.lastIdx]
  refine decide_eq_decide.mpr (BitVec.toNat_inj.symm.trans ?_)
  omega

theorem decided_of_sending {matcher : Nat → BitVec p.dataWidth} {out : Nat}
    (hVerdict : verdictQ s = verdict p s.store matcher)
    (hD : SendingNext s i)
    (hSizeD : packetMetaSizeD s i = BitVec.ofNat 32 (out * p.beatSize)) : Decided (step s i) matcher out := by
  have hKept : verdictQ (outputs s i) = verdictQ s ∧ (outputs s i).store = s.store := by
    rcases hD with hD | hD | hD | hD <;> rw [outputs, hD] <;> exact ⟨rfl, rfl⟩
  refine ⟨?_, hSizeD⟩
  change verdictQ (outputs s i) = verdict p (outputs s i).store matcher
  rw [hKept.1, hKept.2, hVerdict]

theorem Replaying.load {matcher : Nat → BitVec p.dataWidth} {count : Nat} {more : Bool}
    (h : Replaying s count more) (hD : stateD s i = if s.lastIdx == s.matcherIdx then .sendLast else .send)
    (hRoom : s.matcherIdx.toNat < count) (hLast : s.sendTlast = false)
    (hPassD : passthroughD s i = s.passthroughQ)
    (hMetaD : packetMetaValidD s i = false) (hVerdict : verdictQ s = verdict p s.store matcher)
    (hSizeD : packetMetaSizeD s i = BitVec.ofNat 32 (s.matcherIdx.toNat * p.beatSize)) :
    Reads (step s i) (.held matcher count more) (List.replicate s.matcherIdx.toNat s.matchedQ) := by
  rw [h.lastIdx_beq] at hD
  split_ifs at hD with hEnd
  · obtain rfl := of_decide_eq_true hEnd
    have hOutputs : outputs s i = { loadSend s with sendTlast := !passthroughD s i || s.sendTlast } := by
      rw [outputs, hD]
    have hSending : SendingNext s i := Or.inr (Or.inr (Or.inl hD))
    rw [← matchedQ_of_sending hSending]
    refine .sendingLast hD (h.keep (by rw [hOutputs]; exact ⟨rfl, rfl⟩) hPassD hMetaD) ?_ ?_ ?_
      (decided_of_sending hVerdict hSending hSizeD)
    · exact congrArg (fun x => x.matcherIdx.toNat) hOutputs
    · exact congrArg State.sendTvalid hOutputs
    · refine (congrArg State.sendTlast hOutputs).trans ?_
      change (!passthroughD s i || s.sendTlast) = !more
      rw [hLast, Bool.or_false, hPassD, h.passthroughQ]
  · have hMore : s.matcherIdx.toNat + 1 < count := by
      have hNe := of_decide_eq_false (Bool.not_eq_true _ ▸ hEnd)
      omega
    have hOutputs : outputs s i = { loadSend s with matcherIdx := s.matcherIdx + 1 } := by rw [outputs, hD]
    have hSending : SendingNext s i := Or.inl hD
    rw [← matchedQ_of_sending hSending]
    refine .sending (Or.inl hD) (h.keep (by rw [hOutputs]; exact ⟨rfl, rfl⟩) hPassD hMetaD) ?_ hMore ?_ ?_
      (decided_of_sending hVerdict hSending hSizeD)
    · refine (congrArg (fun x => x.matcherIdx.toNat) hOutputs).trans (toNat_succ ?_)
      have hLt := s.lastIdx.isLt
      have hCount := h.lastIdx
      omega
    · exact congrArg State.sendTvalid hOutputs
    · exact (congrArg State.sendTlast hOutputs).trans hLast

theorem moves_matching {matcher : Nat → BitVec p.dataWidth} {count : Nat} {more : Bool}
    (hPhase : s.stateQ = .matching) (hReplaying : Replaying s count more) (hIdx : s.matcherIdx = 0)
    (hValid : s.sendTvalid = false) (hLast : s.sendTlast = false) (hDecided : Decided s matcher 0) :
    Moves s i (.held matcher count more) [] := by
  have hPass : doPass s = false := by rw [doPass, hPhase]; rfl
  have hSent := sent_of_not_valid (i := i) hPass hValid
  obtain ⟨hConsumed, hMetaD, hSizeD⟩ := hReplaying.quiet (i := i) hPass (by rw [hPhase]; rfl) hSent
  have hZero : s.matcherIdx.toNat = 0 := by rw [hIdx]; exact BitVec.toNat_zero
  have hRoom : s.matcherIdx.toNat < count := by
    have hCount := hReplaying.lastIdx
    omega
  refine moves_of_not_sent hSent ?_
  rw [hConsumed]
  have hNext := hReplaying.load (i := i) (by rw [stateD, hPhase]) hRoom hLast
    (by rw [passthroughD, hPhase]) hMetaD hDecided.verdictQ (by rw [hSizeD, hDecided.size, hZero])
  rwa [hZero] at hNext

theorem Decided.counted {matcher : Nat → BitVec p.dataWidth} {out : Nat} (h : Decided s matcher out)
    (hIdle : (s.stateQ == .idle) = false) (hSent : (sent s i).isSome = true) :
    packetMetaSizeD s i = BitVec.ofNat 32 ((out + 1) * p.beatSize) := by
  rw [packetMetaSizeD, hIdle, if_neg Bool.false_ne_true, if_pos hSent, h.size, ← BitVec.ofNat_add, Nat.succ_mul]

theorem moves_of_more {r : Reading p} {b : Beat p} {out : Nat} (hSent : sent s i = some (s.matchedQ, b))
    (hMore : b.tlast = false)
    (h : Reads (step s i) (r.takes (consumed s i)) (List.replicate (out + 1) s.matchedQ)) :
    Moves s i r (List.replicate out s.matchedQ) := by
  have hStays : frameLeaves s i = false := by rw [frameLeaves, hSent]; exact hMore
  rw [Moves, hStays, if_neg Bool.false_ne_true, portsWith, hSent]
  rwa [List.replicate_succ'] at h

theorem moves_sending {matcher : Nat → BitVec p.dataWidth} {count out : Nat} {more : Bool}
    (hPhase : s.stateQ = .send ∨ s.stateQ = .sendWait) (hReplaying : Replaying s count more)
    (hIdx : s.matcherIdx.toNat = out + 1) (hOut : out + 1 < count) (hValid : s.sendTvalid = true)
    (hLast : s.sendTlast = false) (hDecided : Decided s matcher out) :
    Moves s i (.held matcher count more) (List.replicate out s.matchedQ) := by
  obtain ⟨hPass, hIdle, hPassD, hD⟩ := sending_signals (i := i) hPhase hValid
  have hSent := sent_of_valid (i := i) hPass hValid
  cases hTready : sendTready s i with
  | false =>
    rw [hTready, if_neg Bool.false_ne_true] at hSent hD
    obtain ⟨hConsumed, hMetaD, hSizeD⟩ := hReplaying.quiet (i := i) hPass hIdle hSent
    have hOutputs : outputs s i = s := by rw [outputs, hD]
    have hSending : SendingNext s i := Or.inr (Or.inl hD)
    refine moves_of_not_sent hSent ?_
    rw [hConsumed, ← matchedQ_of_sending hSending]
    exact .sending (Or.inr hD) (hReplaying.keep (by rw [hOutputs]; exact ⟨rfl, rfl⟩) hPassD hMetaD)
      ((congrArg (fun x => x.matcherIdx.toNat) hOutputs).trans hIdx) hOut
      ((congrArg State.sendTvalid hOutputs).trans hValid) ((congrArg State.sendTlast hOutputs).trans hLast)
      (decided_of_sending hDecided.verdictQ hSending (hSizeD.trans hDecided.size))
  | true =>
    rw [hTready, if_pos rfl] at hSent hD
    have hStays : frameLeaves s i = false := by rw [frameLeaves, hSent]; exact hLast
    have hMetaD := packetMetaValidD_of_stays hReplaying.packetMetaValid hStays
    refine moves_of_more hSent hLast ?_
    rw [consumed_of_blocked hPass hReplaying.bufferedTready, ← hIdx]
    refine hReplaying.load hD (by omega) hLast hPassD hMetaD hDecided.verdictQ ?_
    rw [hDecided.counted hIdle (by rw [hSent]; rfl), hIdx]

theorem reads_passing {matcher : Nat → BitVec p.dataWidth} {out : Nat} (hD : stateD s i = .passthrough)
    (hPassD : passthroughD s i = true) (hReady : s.bufferedTready = false) (hMetaD : packetMetaValidD s i = false)
    (hVerdict : verdictQ s = verdict p s.store matcher)
    (hSizeD : packetMetaSizeD s i = BitVec.ofNat 32 (out * p.beatSize)) :
    Reads (step s i) (.held matcher out true) (List.replicate out s.matchedQ) := by
  have hOutputs : outputs s i = s := by rw [outputs, hD]
  have hSending : SendingNext s i := Or.inr (Or.inr (Or.inr hD))
  rw [← matchedQ_of_sending hSending]
  exact .passing hD hPassD ((congrArg State.bufferedTready hOutputs).trans hReady) hMetaD
    (decided_of_sending hVerdict hSending hSizeD)

theorem moves_of_last {r : Reading p} {matcher : Nat → BitVec p.dataWidth} {b : Beat p} {out : Nat}
    (hD : stateD s i = afterFrame s) (hPassD : passthroughD s i = false) (hIdle : (s.stateQ == .idle) = false)
    (hMeta : s.packetMetaValid = false) (hSent : sent s i = some (s.matchedQ, b)) (hTlast : b.tlast = true)
    (hTaken : r.takes (consumed s i) = .held matcher (out + 1) false) (hDecided : Decided s matcher out) :
    Moves s i r (List.replicate out s.matchedQ) := by
  have hLeaves : frameLeaves s i = true := by rw [frameLeaves, hSent]; exact hTlast
  have hMetaD := packetMetaValidD_of_leaves hIdle hMeta hLeaves
  have hCleared : stateD s i = .idle ∨ stateD s i = .metadata := by
    rw [hD, afterFrame]
    split_ifs
    · exact Or.inr rfl
    · exact Or.inl rfl
  have hTag : packetMetaTag (step s i) = packetMetaTag s := by
    change (verdictQ (outputs s i)).tag = _
    rcases hCleared with hD | hD <;> rw [outputs, hD] <;> rfl
  obtain ⟨hStoring, hReady⟩ := storing_of_cleared hCleared hPassD
  rw [Moves, hLeaves, if_pos rfl, hTaken]
  refine ⟨?_, rfl, hDecided.verdictQ, ?_, hMetaD, hTag, hDecided.counted hIdle (by rw [hSent]; rfl)⟩
  · rw [afterFrame] at hD
    cases hMatched : s.matchedQ with
    | false =>
      rw [hMatched, if_neg Bool.false_ne_true] at hD
      exact .idle hD hStoring (hReady.trans (by rw [hD]; rfl)) (hMetaD.trans hMatched)
    | true =>
      rw [hMatched, if_pos rfl] at hD
      exact .metadata hD hStoring (hReady.trans (by rw [hD]; rfl)) (hMetaD.trans hMatched)
  · rw [portsWith, hSent]
    exact List.replicate_succ'.symm

theorem moves_sendingLast {matcher : Nat → BitVec p.dataWidth} {out : Nat} {more : Bool}
    (hPhase : s.stateQ = .sendLast) (hReplaying : Replaying s (out + 1) more) (hIdx : s.matcherIdx.toNat = out)
    (hValid : s.sendTvalid = true) (hLast : s.sendTlast = !more) (hDecided : Decided s matcher out) :
    Moves s i (.held matcher (out + 1) more) (List.replicate out s.matchedQ) := by
  obtain ⟨hPass, hIdle, hPassD, hD⟩ := sendLast_signals (i := i) hPhase hValid
  have hSent := sent_of_valid (i := i) hPass hValid
  have hConsumed := consumed_of_blocked (i := i) hPass hReplaying.bufferedTready
  cases hTready : sendTready s i with
  | false =>
    rw [hTready, if_neg Bool.false_ne_true] at hSent hD
    obtain ⟨_, hMetaD, hSizeD⟩ := hReplaying.quiet (i := i) hPass hIdle hSent
    have hOutputs : outputs s i = { loadSend s with sendTlast := !passthroughD s i || s.sendTlast } := by
      rw [outputs, hD]
    have hSending : SendingNext s i := Or.inr (Or.inr (Or.inl hD))
    refine moves_of_not_sent hSent ?_
    rw [hConsumed, ← matchedQ_of_sending hSending]
    refine .sendingLast hD (hReplaying.keep (by rw [hOutputs]; exact ⟨rfl, rfl⟩) hPassD hMetaD)
      ((congrArg (fun x => x.matcherIdx.toNat) hOutputs).trans hIdx) (congrArg State.sendTvalid hOutputs) ?_
      (decided_of_sending hDecided.verdictQ hSending (hSizeD.trans hDecided.size))
    refine (congrArg State.sendTlast hOutputs).trans ?_
    change (!passthroughD s i || s.sendTlast) = !more
    rw [hPassD, hReplaying.passthroughQ, hLast, Bool.or_self]
  | true =>
    rw [hTready, if_pos rfl] at hSent hD
    rw [hReplaying.passthroughQ] at hD hPassD
    cases more with
    | false =>
      rw [if_neg Bool.false_ne_true] at hD
      refine moves_of_last hD hPassD hIdle hReplaying.packetMetaValid hSent hLast ?_ hDecided
      rw [hConsumed]
      rfl
    | true =>
      rw [if_pos rfl] at hD
      have hStays : frameLeaves s i = false := by rw [frameLeaves, hSent]; exact hLast
      have hMetaD := packetMetaValidD_of_stays hReplaying.packetMetaValid hStays
      refine moves_of_more hSent hLast ?_
      rw [hConsumed]
      exact reads_passing hD hPassD hReplaying.bufferedTready hMetaD hDecided.verdictQ
        (hDecided.counted hIdle (by rw [hSent]; rfl))

theorem moves_passing {matcher : Nat → BitVec p.dataWidth} {out : Nat} (hPhase : s.stateQ = .passthrough)
    (hPass : s.passthroughQ = true) (hReady : s.bufferedTready = false) (hMeta : s.packetMetaValid = false)
    (hDecided : Decided s matcher out) :
    Moves s i (.held matcher out true) (List.replicate out s.matchedQ) := by
  have hIdle : (s.stateQ == .idle) = false := by rw [hPhase]; rfl
  have hSent := sent_of_passing (i := i) hPhase
  cases hConsumed : consumed s i with
  | none =>
    rw [hConsumed, Option.map_none] at hSent
    have hD : stateD s i = .passthrough := by simp [stateD, hPhase, hSent]
    have hPassD : passthroughD s i = s.passthroughQ := by simp [passthroughD, hPhase, hSent]
    have hMetaD : packetMetaValidD s i = false := by simp [packetMetaValidD, hIdle, hSent, hMeta]
    have hSizeD : packetMetaSizeD s i = s.packetMetaSize := by simp [packetMetaSizeD, hIdle, hSent]
    refine moves_of_not_sent hSent ?_
    rw [hConsumed]
    exact reads_passing hD (hPassD.trans hPass) hReady hMetaD hDecided.verdictQ (hSizeD.trans hDecided.size)
  | some b =>
    rw [hConsumed, Option.map_some] at hSent
    have hTaken : (Reading.held matcher out true).takes (consumed s i) = .held matcher (out + 1) (!b.tlast) := by
      rw [hConsumed]
      rfl
    have hD : stateD s i = if b.tlast then afterFrame s else .passthrough := by simp only [stateD, hPhase, hSent]
    have hPassD : passthroughD s i = (!b.tlast && s.passthroughQ) := by simp only [passthroughD, hPhase, hSent]
    cases hTlast : b.tlast with
    | true =>
      rw [hTlast] at hD hPassD hTaken
      exact moves_of_last hD hPassD hIdle hMeta hSent hTlast hTaken hDecided
    | false =>
      rw [hTlast] at hD hPassD hTaken
      have hStays : frameLeaves s i = false := by rw [frameLeaves, hSent]; exact hTlast
      have hMetaD := packetMetaValidD_of_stays hMeta hStays
      refine moves_of_more hSent hTlast ?_
      rw [hTaken]
      exact reads_passing hD (hPassD.trans hPass) hReady hMetaD hDecided.verdictQ
        (hDecided.counted hIdle (by rw [hSent]; rfl))

theorem moves_metadata (hPhase : s.stateQ = .metadata) (hStoring : Storing s (fun _ => 0) 0)
    (hReady : s.bufferedTready = false) (hMeta : s.packetMetaValid = true) : Moves s i .start [] := by
  obtain ⟨hPass, hSent, hMetaD, hD⟩ := metadata_signals (i := i) hPhase hMeta hStoring.sendTvalid
  have hPassD : passthroughD s i = false := by rw [passthroughD, hPhase]; exact hStoring.passthroughQ
  refine moves_of_not_sent hSent ?_
  rw [consumed_of_blocked hPass hReady]
  cases hTaken : i.metaReady with
  | true =>
    rw [hTaken] at hD hMetaD
    obtain ⟨hCleared, hReadyD⟩ := storing_of_cleared (Or.inl hD) hPassD
    exact .idle hD hCleared (hReadyD.trans (by rw [hD]; rfl)) hMetaD
  | false =>
    rw [hTaken] at hD hMetaD
    obtain ⟨hCleared, hReadyD⟩ := storing_of_cleared (Or.inr hD) hPassD
    exact .metadata hD hCleared (hReadyD.trans (by rw [hD]; rfl)) hMetaD

theorem reads_init (conf : MatchConf) : Reads (init p conf) .start [] := .idle rfl ⟨rfl, rfl, rfl, rfl, rfl⟩ rfl rfl

/-- A cycle follows the reading, whatever the input and the back-pressure. -/
theorem moves_step {r : Reading p} {ports : List Bool} (h : Reads s r ports) (i : Input p) :
    Moves s i r ports := by
  cases h with
  | idle hPhase hStoring hReady => exact moves_idle hPhase hStoring hReady
  | storing hPhase hStoring hBeats hReady hMeta hSize =>
    exact moves_storing hPhase hStoring hBeats hReady hMeta hSize
  | stored hPhase hMatcher hReplaying hIdx hValid hLast hSize =>
    exact moves_stored hPhase hMatcher hReplaying hIdx hValid hLast hSize
  | matching hPhase hReplaying hIdx hValid hLast hDecided =>
    exact moves_matching hPhase hReplaying hIdx hValid hLast hDecided
  | sending hPhase hReplaying hIdx hOut hValid hLast hDecided =>
    exact moves_sending hPhase hReplaying hIdx hOut hValid hLast hDecided
  | sendingLast hPhase hReplaying hIdx hValid hLast hDecided =>
    exact moves_sendingLast hPhase hReplaying hIdx hValid hLast hDecided
  | passing hPhase hPass hReady hMeta hDecided => exact moves_passing hPhase hPass hReady hMeta hDecided
  | metadata hPhase hStoring hReady hMeta => exact moves_metadata hPhase hStoring hReady hMeta

end Steps

end FPsPIN.PktMatch
