import FPsPIN.HostMem.Bursts

/-!
# One descriptor for each burst

The stages put together over a run: descriptors are those of the bursts, in
order, and each is issued if every party that the state machine waits for acts
in the end.
-/

namespace FPsPIN.HostMem

open Bytes Config Run

variable {p : Params} (bursts : Nat → Burst)

def beatsBefore : Nat → List Beat
  | 0 => []
  | k + 1 => beatsBefore k ++ (bursts k).beats

/-- Where the machine is in the stream, after some addresses, beats and descriptors. -/
inductive Stage : Nat → List Beat → Nat → State p → Prop
  | idle {k : Nat} {s : State p} (h : Idle s) : Stage k (beatsBefore bursts k) k s
  | toClient {k : Nat} {s : State p} (h : ToClient (bursts k) s) : Stage (k + 1) (beatsBefore bursts k) k s
  | storing {k j : Nat} {s : State p} (h : Storing (bursts k) j s) :
      Stage (k + 1) (beatsBefore bursts k ++ (bursts k).beats.take j) k s
  | stored {k : Nat} {s : State p} (h : Stored (bursts k) s) : Stage (k + 1) (beatsBefore bursts (k + 1)) k s
  | toDma {k : Nat} {s : State p} (h : ToDma (bursts k) s) : Stage (k + 1) (beatsBefore bursts (k + 1)) k s
  | dmaBusy {k : Nat} {s : State p} (h : DmaBusy (bursts k) s) :
      Stage (k + 1) (beatsBefore bursts (k + 1)) (k + 1) s
  | finishing {k : Nat} {s : State p} (h : Finishing s) : Stage (k + 1) (beatsBefore bursts (k + 1)) (k + 1) s

structure Continues (aws : Nat) (beats : List Beat) (i : Input) : Prop where
  aw : i.awvalid = true → i.aw = (bursts aws).aw
  beat : i.wvalid = true → ∀ k, beats.length < (beatsBefore bursts k).length →
    (beatsBefore bursts k)[beats.length]? = some i.beat

/-- The input that a phase waits for. -/
inductive Wait where
  | desc
  | report
  | beat
  | client
  | aw
  | bready
  | dmaStatus
deriving DecidableEq

def waitsFor (s : State p) : Wait :=
  match s.stateQ with
  | .idle => .aw
  | .issueToClient | .waitClient => .client
  | .waitClientFin => if s.client.phase == .write then .beat else .report
  | .issueToDma | .waitDma => .desc
  | .waitDmaFin => .dmaStatus
  | .finishAxi => .bready

def gives (i : Input) : Wait → Bool
  | .desc => i.descReady
  | .report => i.clientReports
  | .beat => i.wvalid && i.clientStores
  | .client => i.clientTakes
  | .aw => i.awvalid
  | .bready => i.bready
  | .dmaStatus => i.dmaStatusValid

/-- The waits in their order, counted from the next descriptor backwards. -/
def Wait.place : Wait → Nat
  | .desc => 0
  | .report => 1
  | .beat => 2
  | .client => 3
  | .aw => 4
  | .bready => 5
  | .dmaStatus => 6

/-- Falls until the next descriptor; a burst has at most 256 beats. -/
def rank (s : State p) : Nat := 1000 * (waitsFor s).place + if waitsFor s = .beat then s.client.cycleCount else 0

section Ranks

variable {s : State p} {b : Burst}

theorem Idle.rank_eq (h : Idle s) : waitsFor s = .aw ∧ rank s = 4000 := by
  simp [rank, waitsFor, Wait.place, h.phase]

theorem ToClient.rank_eq (h : ToClient b s) : waitsFor s = .client ∧ rank s = 3000 := by
  rcases h.phase with hPhase | hPhase <;> simp [rank, waitsFor, Wait.place, hPhase]

theorem Storing.rank_eq {j : Nat} (h : Storing b j s) :
    waitsFor s = .beat ∧ rank s + j + 1 = 2000 + b.beats.length := by
  have hLeft := h.left
  have hWait : waitsFor s = .beat := by simp [waitsFor, h.phase, h.client]
  refine ⟨hWait, ?_⟩
  rw [rank, hWait, if_pos rfl, Wait.place]
  omega

theorem Stored.rank_eq (h : Stored b s) : waitsFor s = .report ∧ rank s = 1000 := by
  simp [rank, waitsFor, Wait.place, h.phase, h.client]

theorem ToDma.rank_eq (h : ToDma b s) : waitsFor s = .desc ∧ rank s = 0 := by
  rcases h.phase with hPhase | hPhase <;> simp [rank, waitsFor, Wait.place, hPhase]

theorem DmaBusy.rank_eq (h : DmaBusy b s) : waitsFor s = .dmaStatus ∧ rank s = 6000 := by
  simp [rank, waitsFor, Wait.place, h.phase]

theorem Finishing.rank_eq (h : Finishing s) : waitsFor s = .bready ∧ rank s = 5000 := by
  simp [rank, waitsFor, Wait.place, h.phase]

theorem Burst.length_le (b : Burst) : b.beats.length ≤ 256 := by
  have hLen := b.aw.len.isLt
  rw [b.length_eq]
  omega

end Ranks

variable {bursts} {aws descs : Nat} {beats : List Beat} {s : State p}

theorem storing_beat {k j : Nat} {i : Input} (hj : j < (bursts k).beats.length)
    (hInput : Continues bursts aws (beatsBefore bursts k ++ (bursts k).beats.take j) i)
    (hValid : i.wvalid = true) :
    (bursts k).beats[j]? = some i.beat := by
  have hLength : (beatsBefore bursts k ++ (bursts k).beats.take j).length =
      (beatsBefore bursts k).length + j := by
    rw [List.length_append, List.length_take_of_le hj.le]
  have hNext := hInput.beat hValid (k + 1) (by rw [hLength, beatsBefore, List.length_append]; omega)
  rw [hLength, beatsBefore, List.getElem?_append_right (Nat.le_add_right _ _), Nat.add_sub_cancel_left] at hNext
  exact hNext

structure Moves (bursts : Nat → Burst) (aws : Nat) (beats : List Beat) (descs : Nat) (s : State p) (i : Input) :
    Prop where
  stage : Stage bursts (aws + (awTaken s i).toNat) (beats ++ if beatTaken s i then [i.beat] else [])
    (descs + (descTaken s i).toNat) (step s i)
  desc : descTaken s i = true → s.desc = (bursts descs).desc p
  closer : descTaken s i = true ∨
    if gives i (waitsFor s) then rank (step s i) < rank s else rank (step s i) = rank s

theorem Moves.of_quiet {i : Input} (hEvents : Handshakes s i false false false)
    (hStage : Stage bursts aws beats descs (step s i))
    (hRank : if gives i (waitsFor s) then rank (step s i) < rank s else rank (step s i) = rank s) :
    Moves bursts aws beats descs s i := by
  refine ⟨?_, fun hDesc => ?_, .inr hRank⟩
  · rw [hEvents.aw, hEvents.beat, hEvents.desc]
    exact (List.append_nil beats).symm ▸ hStage
  · rw [hEvents.desc] at hDesc
    cases hDesc

theorem Idle.moves {k : Nat} (h : Idle s) {i : Input} (hInput : Continues bursts k beats i)
    (hBeats : beats = beatsBefore bursts k) : Moves bursts k beats k s i := by
  subst hBeats
  obtain ⟨hWait, hRank⟩ := h.rank_eq
  have hEvents := h.events i
  cases hValid : i.awvalid with
  | false =>
    have hNext := h.stay i hValid
    rw [hValid] at hEvents
    refine .of_quiet hEvents (.idle hNext) ?_
    simp [hWait, gives, hValid, hRank, hNext.rank_eq.2]
  | true =>
    have hNext := h.accept i hValid (hInput.aw hValid)
    refine ⟨?_, fun hDesc => ?_, .inr ?_⟩
    · rw [hEvents.aw, hEvents.beat, hEvents.desc, hValid]
      exact (List.append_nil _).symm ▸ .toClient hNext
    · rw [hEvents.desc] at hDesc
      cases hDesc
    · simp [hWait, gives, hValid, hRank, hNext.rank_eq.2]

theorem ToClient.moves {k : Nat} (h : ToClient (bursts k) s) (i : Input) :
    Moves bursts (k + 1) (beatsBefore bursts k) k s i := by
  obtain ⟨hWait, hRank⟩ := h.rank_eq
  cases hTakes : i.clientTakes with
  | false =>
    have hNext := h.stay i hTakes
    refine .of_quiet (h.events i) (.toClient hNext) ?_
    simp [hWait, gives, hTakes, hRank, hNext.rank_eq.2]
  | true =>
    have hNext := h.take i hTakes
    have hStage := Stage.storing hNext
    rw [List.take_zero, List.append_nil] at hStage
    refine .of_quiet (h.events i) hStage ?_
    have hNextRank := hNext.rank_eq.2
    have hLength := (bursts k).length_le
    simp only [hWait, gives, hTakes, hRank, if_true]
    omega

theorem Storing.moves {k j : Nat} (h : Storing (bursts k) j s) {i : Input}
    (hInput : Continues bursts (k + 1) (beatsBefore bursts k ++ (bursts k).beats.take j) i) :
    Moves bursts (k + 1) (beatsBefore bursts k ++ (bursts k).beats.take j) k s i := by
  obtain ⟨hWait, hRank⟩ := h.rank_eq
  have hEvents := h.events i
  have hLeft := h.left
  cases hTaken : i.wvalid && i.clientStores with
  | false =>
    rw [hTaken] at hEvents
    have hNext := h.stay i hEvents.beat
    have hNextRank := hNext.rank_eq.2
    refine .of_quiet hEvents (.storing hNext) ?_
    simp only [hWait, gives, hTaken, Bool.false_eq_true, if_false]
    omega
  | true =>
    have hBeatTaken : beatTaken s i = true := hEvents.beat.trans hTaken
    have hj : j < (bursts k).beats.length := by omega
    have hBeat := storing_beat hj hInput (Bool.and_eq_true_iff.mp hTaken).1
    have hTake : (bursts k).beats.take j ++ [i.beat] = (bursts k).beats.take (j + 1) := by
      rw [List.take_add_one, hBeat]
      rfl
    have hNone : descTaken s i = true → s.desc = (bursts k).desc p := fun hDesc => by
      rw [hEvents.desc] at hDesc
      cases hDesc
    rcases Nat.lt_or_eq_of_le (Nat.succ_le_of_lt hj) with hMore | hAll
    · have hNext := h.next i hBeatTaken hBeat hMore
      have hNextRank := hNext.rank_eq.2
      refine ⟨?_, hNone, .inr ?_⟩
      · rw [hEvents.aw, hBeatTaken, hEvents.desc, if_pos rfl, List.append_assoc, hTake]
        exact .storing hNext
      · simp only [hWait, gives, hTaken, if_true]
        omega
    · have hNext := h.finish i hBeatTaken hBeat hAll
      have hNextRank := hNext.rank_eq.2
      refine ⟨?_, hNone, .inr ?_⟩
      · rw [hEvents.aw, hBeatTaken, hEvents.desc, if_pos rfl, List.append_assoc, hTake,
          List.take_of_length_le hAll.ge]
        exact .stored hNext
      · simp only [hWait, gives, hTaken, if_true]
        omega

theorem Stored.moves {k : Nat} (h : Stored (bursts k) s) (i : Input) :
    Moves bursts (k + 1) (beatsBefore bursts (k + 1)) k s i := by
  obtain ⟨hWait, hRank⟩ := h.rank_eq
  cases hReports : i.clientReports with
  | false =>
    have hNext := h.stay i hReports
    refine .of_quiet (h.events i) (.stored hNext) ?_
    simp [hWait, gives, hReports, hRank, hNext.rank_eq.2]
  | true =>
    have hNext := h.report i hReports
    refine .of_quiet (h.events i) (.toDma hNext) ?_
    simp [hWait, gives, hReports, hRank, hNext.rank_eq.2]

theorem ToDma.moves {k : Nat} (h : ToDma (bursts k) s) (i : Input) :
    Moves bursts (k + 1) (beatsBefore bursts (k + 1)) k s i := by
  obtain ⟨hWait, hRank⟩ := h.rank_eq
  have hEvents := h.events i
  cases hReady : i.descReady with
  | false =>
    have hNext := h.stay i hReady
    rw [hReady] at hEvents
    refine .of_quiet hEvents (.toDma hNext) ?_
    simp [hWait, gives, hReady, hRank, hNext.rank_eq.2]
  | true =>
    refine ⟨?_, fun _ => h.desc, .inl (hEvents.desc.trans hReady)⟩
    rw [hEvents.aw, hEvents.beat, hEvents.desc, hReady]
    exact (List.append_nil _).symm ▸ .dmaBusy (h.take i hReady)

theorem DmaBusy.moves {k : Nat} (h : DmaBusy (bursts k) s) (i : Input) :
    Moves bursts (k + 1) (beatsBefore bursts (k + 1)) (k + 1) s i := by
  obtain ⟨hWait, hRank⟩ := h.rank_eq
  cases hStatus : i.dmaStatusValid with
  | false =>
    have hNext := h.stay i hStatus
    refine .of_quiet (h.events i) (.dmaBusy hNext) ?_
    simp [hWait, gives, hStatus, hRank, hNext.rank_eq.2]
  | true =>
    have hNext := h.complete i hStatus
    refine .of_quiet (h.events i) (.finishing hNext) ?_
    simp [hWait, gives, hStatus, hRank, hNext.rank_eq.2]

theorem Finishing.moves {k : Nat} (h : Finishing s) (i : Input) :
    Moves bursts (k + 1) (beatsBefore bursts (k + 1)) (k + 1) s i := by
  obtain ⟨hWait, hRank⟩ := h.rank_eq
  cases hReady : i.bready with
  | false =>
    have hNext := h.stay i hReady
    refine .of_quiet (h.events i) (.finishing hNext) ?_
    simp [hWait, gives, hReady, hRank, hNext.rank_eq.2]
  | true =>
    have hNext := h.done i hReady
    refine .of_quiet (h.events i) (.idle hNext) ?_
    simp [hWait, gives, hReady, hRank, hNext.rank_eq.2]

theorem Stage.moves (h : Stage bursts aws beats descs s) {i : Input} (hInput : Continues bursts aws beats i) :
    Moves bursts aws beats descs s i := by
  cases h with
  | idle hIdle => exact hIdle.moves hInput rfl
  | toClient hToClient => exact hToClient.moves i
  | storing hStoring => exact hStoring.moves hInput
  | stored hStored => exact hStored.moves i
  | toDma hToDma => exact hToDma.moves i
  | dmaBusy hBusy => exact hBusy.moves i
  | finishing hFinishing => exact hFinishing.moves i

theorem Stage.rank_div (h : Stage bursts aws beats descs s) : rank s / 1000 = (waitsFor s).place := by
  cases h with
  | idle h => rw [h.rank_eq.1, h.rank_eq.2]; rfl
  | toClient h => rw [h.rank_eq.1, h.rank_eq.2]; rfl
  | storing h =>
    have hLength := (bursts descs).length_le
    have hLeft := h.left
    have hRank := h.rank_eq.2
    rw [h.rank_eq.1, Wait.place]
    omega
  | stored h => rw [h.rank_eq.1, h.rank_eq.2]; rfl
  | toDma h => rw [h.rank_eq.1, h.rank_eq.2]; rfl
  | dmaBusy h => rw [h.rank_eq.1, h.rank_eq.2]; rfl
  | finishing h => rw [h.rank_eq.1, h.rank_eq.2]; rfl

theorem Wait.place_inj {w w' : Wait} (h : w.place = w'.place) : w = w' := by
  cases w <;> cases w' <;> first | rfl | cases h

section Runs

variable (ram : RamAddr p → Byte) (inputs : Nat → Input)

def runAt (t : Nat) : State p := stateAt step (init p ram) inputs t

def awsOn (t : Nat) : List Aw :=
  window (fun u => if awTaken (runAt ram inputs u) (inputs u) then [(inputs u).aw] else []) 0 t

def beatsOn (t : Nat) : List Beat :=
  window (fun u => if beatTaken (runAt ram inputs u) (inputs u) then [(inputs u).beat] else []) 0 t

def descsOn (t : Nat) : List (Desc p) :=
  window (fun u => if descTaken (runAt ram inputs u) (inputs u) then [(runAt ram inputs u).desc] else []) 0 t

/-- The write channels carry a stream of bursts. -/
def Carries (bursts : Nat → Burst) : Prop :=
  ∀ t, Continues bursts (awsOn ram inputs t).length (beatsOn ram inputs t) (inputs t)

/-- Every party acts in the end, as long as the descriptor with number m is missing. -/
def FairUntil (m : Nat) : Prop :=
  ∀ (w : Wait) (t : Nat), (descsOn ram inputs t).length ≤ m → ∃ u, t ≤ u ∧ gives (inputs u) w = true

variable {ram inputs}

theorem run_stage (h : Carries ram inputs bursts) (t : Nat) :
    Stage bursts (awsOn ram inputs t).length (beatsOn ram inputs t) (descsOn ram inputs t).length
        (runAt ram inputs t) ∧
      descsOn ram inputs t = (List.range (descsOn ram inputs t).length).map fun k => (bursts k).desc p := by
  induction t with
  | zero => exact ⟨.idle ⟨rfl, rfl, rfl, rfl, rfl, rfl, rfl⟩, rfl⟩
  | succ t ih =>
    obtain ⟨hStage, hDesc, _⟩ := ih.1.moves (h t)
    have hAws : (awsOn ram inputs (t + 1)).length =
        (awsOn ram inputs t).length + (awTaken (runAt ram inputs t) (inputs t)).toNat := by
      rw [awsOn, window_succ _ (Nat.zero_le t), List.length_append, ← awsOn]
      cases awTaken (runAt ram inputs t) (inputs t) <;> rfl
    have hBeats : beatsOn ram inputs (t + 1) =
        beatsOn ram inputs t ++ if beatTaken (runAt ram inputs t) (inputs t) then [(inputs t).beat] else [] :=
      window_succ _ (Nat.zero_le t)
    have hDescs : descsOn ram inputs (t + 1) = descsOn ram inputs t ++
        if descTaken (runAt ram inputs t) (inputs t) then [(runAt ram inputs t).desc] else [] :=
      window_succ _ (Nat.zero_le t)
    cases hTaken : descTaken (runAt ram inputs t) (inputs t) with
    | false =>
      rw [hTaken, if_neg Bool.false_ne_true, List.append_nil] at hDescs
      rw [hTaken] at hStage
      rw [hAws, hBeats, hDescs]
      exact ⟨hStage, ih.2⟩
    | true =>
      rw [hTaken, if_pos rfl] at hDescs
      rw [hTaken] at hStage
      rw [hAws, hBeats, hDescs, List.length_append, List.length_singleton]
      refine ⟨hStage, ?_⟩
      rw [List.range_succ, List.map_append, ← ih.2, List.map_singleton, ← hDesc hTaken]

theorem exists_next_desc (h : Carries ram inputs bursts) {m : Nat} (hFair : FairUntil ram inputs m) {t : Nat}
    (hDue : (descsOn ram inputs t).length = m) : ∃ u, t ≤ u ∧ m < (descsOn ram inputs u).length := by
  refine reached_of_fair (fun u => (descsOn ram inputs u).length = m) (fun u => rank (runAt ram inputs u))
    (fun u => waitsFor (runAt ram inputs u)) (fun u hu => ?_) (fun w u hu => hFair w u hu.le) hDue
  have hRank := ((run_stage h u).1.moves (h u)).closer
  rw [descsOn, window_succ _ (Nat.zero_le u), List.length_append, ← descsOn, hu]
  cases hTaken : descTaken (runAt ram inputs u) (inputs u) with
  | true => exact .inl (Nat.lt_succ_self m)
  | false =>
    rw [hTaken] at hRank
    refine .inr ⟨rfl, ?_⟩
    have hNext := hRank.resolve_left Bool.false_ne_true
    split_ifs at hNext with hGives
    · exact .inl hNext
    · refine .inr ⟨hNext, Wait.place_inj ?_, hGives⟩
      rw [← (run_stage h (u + 1)).1.rank_div, ← (run_stage h u).1.rank_div]
      exact congrArg (· / 1000) hNext

theorem exists_desc (h : Carries ram inputs bursts) {m : Nat} (hFair : FairUntil ram inputs m) :
    ∃ t, m < (descsOn ram inputs t).length := by
  induction m with
  | zero =>
    obtain ⟨t, _, hLt⟩ := exists_next_desc (t := 0) h hFair rfl
    exact ⟨t, hLt⟩
  | succ m ih =>
    obtain ⟨t, hLe⟩ := ih fun w t hLe => hFair w t (Nat.le_succ_of_le hLe)
    rcases Nat.lt_or_eq_of_le (Nat.succ_le_of_lt hLe) with hLt | hEq
    · exact ⟨t, hLt⟩
    · obtain ⟨u, _, hLt⟩ := exists_next_desc h hFair hEq.symm
      exact ⟨u, hLt⟩

theorem dmaBusy_of_phase (h : Carries ram inputs bursts) {m t : Nat}
    (hPhase : (runAt ram inputs t).stateQ = .waitDmaFin) (hLength : (descsOn ram inputs t).length = m + 1) :
    DmaBusy (bursts m) (runAt ram inputs t) := by
  have hStage := (run_stage h t).1
  rw [hLength] at hStage
  generalize hAws : (awsOn ram inputs t).length = aws at hStage
  generalize hBeats : beatsOn ram inputs t = beats at hStage
  cases hStage with
  | dmaBusy hBusy => exact hBusy
  | idle hOther => rw [hOther.phase] at hPhase; cases hPhase
  | toClient hOther => rcases hOther.phase with hEq | hEq <;> (rw [hEq] at hPhase; cases hPhase)
  | storing hOther => rw [hOther.phase] at hPhase; cases hPhase
  | stored hOther => rw [hOther.phase] at hPhase; cases hPhase
  | toDma hOther => rcases hOther.phase with hEq | hEq <;> (rw [hEq] at hPhase; cases hPhase)
  | finishing hOther => rw [hOther.phase] at hPhase; cases hPhase

theorem toDma_of_descTaken (h : Carries ram inputs bursts) {t : Nat}
    (hTaken : descTaken (runAt ram inputs t) (inputs t) = true) : ∃ k, ToDma (bursts k) (runAt ram inputs t) := by
  have hStage := (run_stage h t).1
  have hNone : ∀ {a b : Bool}, ¬ Handshakes (runAt ram inputs t) (inputs t) a b false := by
    intro a b hEvents
    rw [hEvents.desc] at hTaken
    cases hTaken
  generalize hAws : (awsOn ram inputs t).length = aws at hStage
  generalize hBeats : beatsOn ram inputs t = beats at hStage
  generalize hDescs : (descsOn ram inputs t).length = descs at hStage
  cases hStage with
  | toDma hToDma => exact ⟨_, hToDma⟩
  | idle hOther => exact absurd (hOther.events _) hNone
  | toClient hOther => exact absurd (hOther.events _) hNone
  | storing hOther => exact absurd (hOther.events _) hNone
  | stored hOther => exact absurd (hOther.events _) hNone
  | dmaBusy hOther => exact absurd (hOther.events _) hNone
  | finishing hOther => exact absurd (hOther.events _) hNone

theorem stateD_of_descTaken (h : Carries ram inputs bursts) {t : Nat}
    (hTaken : descTaken (runAt ram inputs t) (inputs t) = true) :
    (runAt ram inputs (t + 1)).stateQ = .waitDmaFin := by
  obtain ⟨k, hToDma⟩ := toDma_of_descTaken h hTaken
  have hReady : (inputs t).descReady = true := (hToDma.events (inputs t)).desc ▸ hTaken
  exact (hToDma.take (inputs t) hReady).phase

theorem exists_dmaBusy (h : Carries ram inputs bursts) {m : Nat} (hFair : FairUntil ram inputs m) :
    ∃ t, (runAt ram inputs t).stateQ = .waitDmaFin ∧ (descsOn ram inputs t).length = m + 1 := by
  obtain ⟨t, ht⟩ := exists_desc h hFair
  obtain ⟨u, _, hu, hFirst⟩ :=
    exists_first (P := fun u => m < (descsOn ram inputs u).length) ⟨t, Nat.zero_le t, ht⟩
  cases u with
  | zero => cases hu
  | succ u =>
    have hBefore := hFirst u (Nat.zero_le u) (Nat.lt_succ_self u)
    have hNext : (descsOn ram inputs (u + 1)).length =
        (descsOn ram inputs u).length + (descTaken (runAt ram inputs u) (inputs u)).toNat := by
      rw [descsOn, window_succ _ (Nat.zero_le u), List.length_append, ← descsOn]
      cases descTaken (runAt ram inputs u) (inputs u) <;> rfl
    cases hTaken : descTaken (runAt ram inputs u) (inputs u) with
    | false =>
      rw [hTaken, Bool.toNat_false] at hNext
      omega
    | true =>
      rw [hTaken, Bool.toNat_true] at hNext
      exact ⟨u + 1, stateD_of_descTaken h hTaken, by omega⟩

end Runs

end FPsPIN.HostMem
