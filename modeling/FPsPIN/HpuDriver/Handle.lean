import FPsPIN.HpuDriver.DriverRuns

/-!
# The handle returned by an issue read

A read of the issue register returns the lowest free id of the cycle in which
the read is first seen. When the command has to wait, its id is chosen later:
id 0 once a buffered feedback has left, or the id of the next response when
none was free. The handle is right exactly in the cycles where both choices
agree, and then a granted wait on it proves that the command was answered.
-/

namespace FPsPIN.HpuDriver

open Config CommonCells Run

namespace CmdFrontend

variable {p : Params}

def lastId (p : Params) : Id p := ⟨p.numCmds - 1, Nat.sub_lt p.numCmds_pos Nat.one_pos⟩

def word (x : Id p) : BitVec 32 := BitVec.ofNat 32 x

theorem toNat_word (x : Id p) : (word x).toNat = x := by
  rw [word, BitVec.toNat_ofNat, Nat.mod_eq_of_lt (Nat.lt_of_lt_of_le x.isLt p.numCmds_le)]

theorem word_inj {x y : Id p} (h : word x = word y) : x = y :=
  Fin.ext (by rw [← toNat_word x, ← toNat_word y, h])

theorem idOf_word (x : Id p) : idOf p (word x) = x := by
  have hBits : x.val < 2 ^ Nat.clog 2 p.numCmds := x.isLt.trans_le (Nat.le_pow_clog Nat.one_lt_two _)
  refine Fin.ext ?_
  simp only [idOf, toNat_word]
  rw [Nat.mod_eq_of_lt hBits, Nat.mod_eq_of_lt x.isLt]

variable (s : State p) (i : Input p)

theorem cmdIdx_of_all_free (h : ∀ x, s.freeCmdIds x = false) :
    cmdIdx s = zeroId p ∧ noFreeCmdIds s = false := by
  have hBit : freeBit s 0 = true := by rw [freeBit, dif_pos p.numCmds_pos, h]; rfl
  constructor
  · obtain ⟨_, _, hLow⟩ := lzcCnt_spec (freeBit s) p.numCmds_pos hBit
    refine Fin.ext (Nat.eq_zero_of_not_pos (fun hPos => ?_))
    rw [hLow 0 hPos] at hBit
    cases hBit
  · by_contra hNone
    rw [Bool.not_eq_false, noFreeCmdIds, lzcEmpty_eq_true] at hNone
    rw [hNone 0 p.numCmds_pos] at hBit
    cases hBit

theorem cmdIdx_of_none_free (h : noFreeCmdIds s = true) : cmdIdx s = lastId p := by
  rw [noFreeCmdIds, lzcEmpty, Option.isNone_iff_eq_none] at h
  exact Fin.ext (by simp only [cmdIdx, lzcCnt, h]; rfl)

/-- The id chosen for a waiting command is the one whose number was returned. -/
def Timely : Prop :=
  (s.stateQ = .ready → cmdIssued i = true → i.disabled = true → cmdIdx s = zeroId p) ∧
    (s.stateQ = .waitingID → i.cmdRespValid = true → i.cmdRespId = lastId p)

/-- A waiting command will not get, or did not get, the id that is latched for its read. -/
def Astray : Prop :=
  (s.stateQ = .disabled ∧ s.rdataQ ≠ word (zeroId p)) ∨
    (s.stateQ = .waitingBuffer ∧ s.rdataQ ≠ word s.cmdQ.cmdId.localCmdId)

/-- Facts of a cycle in a run of the whole driver. -/
structure CycleFacts : Prop where
  serving : Serving s → cmdIssued i = true
  waiting : s.stateQ = .waiting → cmdIssued i = false
  released : s.stateQ = .disabled → i.disabled = false → ∀ x, s.freeCmdIds x = false
  latched : s.stateQ = .waitingID → s.rdataQ = word (lastId p)

variable {s i}

theorem disabled_of_next (hNext : stateD s i = .disabled) : i.disabled = true ∧ assignId s i = false := by
  cases hPhase : s.stateQ <;> simp only [stateD, hPhase] at hNext <;> split_ifs at hNext <;>
    simp_all [assignId]

theorem freeCmdIdsD_of_all_free (hAssign : assignId s i = false) (hFree : ∀ x, s.freeCmdIds x = false)
    (x : Id p) : freeCmdIdsD s i x = false := by
  simp only [freeCmdIdsD, hAssign, Bool.false_eq_true, if_false]
  split_ifs <;> simp [Function.update_apply, hFree]

/-- A granted issue read returns a value that is not the id of the command it pushed. -/
def Misreports (s : State p) (i : Input p) : Prop :=
  cmdIssued i = true ∧ stateD s i = .ready ∧ rdataD s i ≠ word (localCmdIdD s i)

/-- A cycle leaves a command astray, or misreports it, exactly when the command was astray before or
the cycle is not timely. -/
theorem astray_step_iff (hFacts : CycleFacts s i) :
    Astray (step s i) ∨ Misreports s i ↔ Astray s ∨ ¬ Timely s i := by
  have hNext : Astray (step s i) ↔ (stateD s i = .disabled ∧ rdataD s i ≠ word (zeroId p)) ∨
      (stateD s i = .waitingBuffer ∧ rdataD s i ≠ word (localCmdIdD s i)) := Iff.rfl
  have hWord : ∀ x y : Id p, word x = word y ↔ x = y := fun x y => ⟨word_inj, congrArg word⟩
  rw [hNext, Misreports, Astray, Timely]
  cases hPhase : s.stateQ with
  | ready =>
    cases hIssued : cmdIssued i with
    | false =>
      rw [stateD_ready_not_issued s i hPhase hIssued]
      split_ifs <;> simp
    | true =>
      have hTest := (not_wait_of_issued i hIssued).2
      have hRdata : rdataD s i = word (cmdIdx s) := by simp [rdataD, hPhase, hTest, hIssued, word]
      rw [stateD_ready_issued s i hPhase hIssued, hRdata, localCmdIdD_eq s i (by rw [hPhase]; decide)]
      cases hDis : i.disabled <;> cases hNone : noFreeCmdIds s <;> cases hFull : cmdBuffFull s <;>
        simp [assignId, hPhase, hIssued, hDis, hNone, hWord]
  | waiting =>
    rw [hFacts.waiting hPhase]
    simp only [stateD, hPhase]
    split_ifs <;> simp
  | disabled =>
    have hRdata : rdataD s i = s.rdataQ := by simp [rdataD, hPhase]
    rw [hRdata, localCmdIdD_eq s i (by rw [hPhase]; decide), hFacts.serving (Or.inl hPhase)]
    cases hDis : i.disabled with
    | true => simp [stateD, hPhase, hDis]
    | false =>
      -- The feedback has left, so no command is pending and the lowest id is free.
      obtain ⟨hIdx, hSome⟩ := cmdIdx_of_all_free s (hFacts.released hPhase hDis)
      cases hFull : cmdBuffFull s <;> simp [stateD, assignId, hPhase, hDis, hIdx, hSome, hFull]
  | waitingID =>
    have hRdata : rdataD s i = word (lastId p) := by simp [rdataD, hPhase, hFacts.latched hPhase]
    rw [hRdata, hFacts.serving (Or.inr (Or.inr hPhase))]
    cases hValid : i.cmdRespValid <;> cases hFull : cmdBuffFull s <;>
      simp [stateD, localCmdIdD, hPhase, hValid, hFull, hWord, @eq_comm _ (lastId p)]
  | waitingBuffer =>
    have hRdata : rdataD s i = s.rdataQ := by simp [rdataD, hPhase]
    rw [hRdata, localCmdIdD_eq s i (by rw [hPhase]; decide), hFacts.serving (Or.inr (Or.inl hPhase))]
    cases hFull : cmdBuffFull s <;> simp [stateD, assignId, hPhase, hFull]

end CmdFrontend

section Runs

open CmdFrontend

variable {p : Params} {inputs : Nat → Input p}

theorem disabled_iff (t : Nat) :
    (cmdInAt inputs t).disabled = true ↔ (runAt inputs t).task.feedbackBuff ≠ [] := by
  change (!(runAt inputs t).task.feedbackBuff.isEmpty) = true ↔ _
  simp

/-- A disabled command is released only after the feedback left, which no pending command allows. -/
theorem disabled_pending (t : Nat) (hState : (cmdAt inputs t).stateQ = .disabled) :
    (runAt inputs t).task.feedbackBuff ≠ [] ∨ ∀ x, (cmdAt inputs t).freeCmdIds x = false := by
  induction t with
  | zero => cases hState
  | succ t ih =>
    change stateD (cmdAt inputs t) (cmdInAt inputs t) = .disabled at hState
    obtain ⟨hDisabled, hAssign⟩ := disabled_of_next hState
    have hBuff := (disabled_iff t).mp hDisabled
    cases hPop : TaskFrontend.feedbackBuffPop (runAt inputs t).task (taskInput (runAt inputs t) (inputs t)) with
    | true =>
      right
      have hNone : noPendingCmd (cmdAt inputs t) = true := by
        simp only [TaskFrontend.feedbackBuffPop, TaskFrontend.hpuFeedbackValid, taskInput, canSendFeedback,
          Bool.and_eq_true] at hPop
        exact hPop.2.1.2
      exact freeCmdIdsD_of_all_free hAssign (of_decide_eq_true hNone)
    | false =>
      left
      change fifoV3Step 1 (runAt inputs t).task.feedbackBuff _ _
        (TaskFrontend.feedbackBuffPop (runAt inputs t).task (taskInput (runAt inputs t) (inputs t))) ≠ []
      rw [fifoV3Step, hPop]
      exact List.append_ne_nil_of_left_ne_nil hBuff _

theorem latched_waitingID (t : Nat) (hState : (cmdAt inputs t).stateQ = .waitingID) :
    (cmdAt inputs t).rdataQ = word (lastId p) := by
  induction t with
  | zero => cases hState
  | succ t ih =>
    change stateD (cmdAt inputs t) (cmdInAt inputs t) = .waitingID at hState
    change rdataD (cmdAt inputs t) (cmdInAt inputs t) = _
    cases hPhase : (cmdAt inputs t).stateQ with
    | ready =>
      cases hIssued : cmdIssued (cmdInAt inputs t) with
      | false =>
        rw [stateD_ready_not_issued _ _ hPhase hIssued] at hState
        split_ifs at hState
      | true =>
        rw [stateD_ready_issued _ _ hPhase hIssued] at hState
        have hNone : noFreeCmdIds (cmdAt inputs t) = true := by
          by_contra hSome
          split_ifs at hState
        have hTest := (not_wait_of_issued _ hIssued).2
        simp only [rdataD, hPhase, hTest, hIssued, Bool.false_eq_true, if_false, if_true]
        rw [cmdIdx_of_none_free _ hNone, word]
    | waiting =>
      simp only [stateD, hPhase] at hState
      split_ifs at hState
    | disabled =>
      exfalso
      cases hDis : (cmdInAt inputs t).disabled with
      | true => simp [stateD, hPhase, hDis] at hState
      | false =>
        have hFree := (disabled_pending t hPhase).resolve_left (fun hBuff => by
          rw [(disabled_iff t).mpr hBuff] at hDis
          cases hDis)
        have hSome := (cmdIdx_of_all_free _ hFree).2
        simp only [stateD, hPhase, hDis, hSome] at hState
        split_ifs at hState
    | waitingID =>
      rw [← ih hPhase, rdataD, hPhase]
    | waitingBuffer =>
      simp only [stateD, hPhase] at hState
      split_ifs at hState

theorem run_cycleFacts (h : Environment inputs) (t : Nat) : CycleFacts (cmdAt inputs t) (cmdInAt inputs t) where
  serving := (run_held h t).issue
  waiting := (run_held h t).not_issued
  released hState hDis := (disabled_pending t hState).resolve_left (fun hBuff => by
    rw [(disabled_iff t).mpr hBuff] at hDis
    cases hDis)
  latched := latched_waitingID t

variable (inputs)

def IssueGranted (t : Nat) : Prop :=
  cmdIssued (cmdInAt inputs t) = true ∧ stateD (cmdAt inputs t) (cmdInAt inputs t) = .ready

/-- A wait on the given handle is granted in cycle t. -/
def WaitGranted (handle : BitVec 32) (t : Nat) : Prop :=
  waitIssued (cmdInAt inputs t) = true ∧ (cmdInAt inputs t).wdata = handle ∧
    stateD (cmdAt inputs t) (cmdInAt inputs t) = .ready

def pushedId (t : Nat) : Id p := localCmdIdD (cmdAt inputs t) (cmdInAt inputs t)

/-- The issue read granted in cycle t pushes a command and returns its id in the next cycle; a later
granted wait on the returned value proves that this command, the last one pushed with its id by
then, has its response. -/
def HandleSound (t : Nat) : Prop :=
  cmdBuffPush (cmdAt inputs t) (cmdInAt inputs t) = true ∧
    (cmdAt inputs (t + 1)).rdataQ = word (pushedId inputs t) ∧
    ∀ u, t < u → WaitGranted inputs (cmdAt inputs (t + 1)).rdataQ u →
      (pushedOn inputs (pushedId inputs t) 0 (t + 1)).length ≤
        (respondedOn inputs (pushedId inputs t) 0 (u + 1)).length

/-- No issue read is granted from cycle u up to before cycle t. -/
def NoGrantBetween (u t : Nat) : Prop := ∀ v, u ≤ v → v < t → ¬ IssueGranted inputs v

variable {inputs}

theorem exists_not_timely (h : Environment inputs) (t : Nat) (hAstray : Astray (cmdAt inputs t)) :
    ∃ u < t, ¬ Timely (cmdAt inputs u) (cmdInAt inputs u) ∧ NoGrantBetween inputs u t := by
  induction t with
  | zero => rcases hAstray with ⟨hState, _⟩ | ⟨hState, _⟩ <;> cases hState
  | succ t ih =>
    have hNoGrant : ¬ IssueGranted inputs t := by
      rintro ⟨_, hReady⟩
      rcases hAstray with ⟨hState, _⟩ | ⟨hState, _⟩ <;> exact absurd (hReady.symm.trans hState) (by decide)
    rw [cmdAt_succ] at hAstray
    rcases (astray_step_iff (run_cycleFacts h t)).mp (Or.inl hAstray) with hBefore | hBad
    · obtain ⟨u, hut, hBad, hBetween⟩ := ih hBefore
      refine ⟨u, Nat.lt_succ_of_lt hut, hBad, fun v huv hv => ?_⟩
      rcases Nat.lt_succ_iff_lt_or_eq.mp hv with hv | rfl
      · exact hBetween v huv hv
      · exact hNoGrant
    · refine ⟨t, Nat.lt_succ_self t, hBad, fun v htv hv => ?_⟩
      obtain rfl : v = t := by omega
      exact hNoGrant

/-- A command astray stays astray until its read is granted, which then misreports it. -/
theorem misreports_of_astray (h : Environment inputs) {u d : Nat}
    (hAstray : Astray (cmdAt inputs (u + 1)) ∨ Misreports (cmdAt inputs u) (cmdInAt inputs u))
    (hBetween : NoGrantBetween inputs u (u + d)) (hGrant : IssueGranted inputs (u + d)) :
    Misreports (cmdAt inputs (u + d)) (cmdInAt inputs (u + d)) := by
  induction d generalizing u with
  | zero =>
    refine hAstray.resolve_left ?_
    rintro (⟨hState, _⟩ | ⟨hState, _⟩) <;> exact absurd (hGrant.2.symm.trans hState) (by decide)
  | succ d ih =>
    have hNext := hAstray.resolve_right (fun hNow =>
      hBetween u (Nat.le_refl u) (by omega) ⟨hNow.1, hNow.2.1⟩)
    have hEq : u + (d + 1) = u + 1 + d := by omega
    rw [hEq] at hBetween hGrant ⊢
    exact ih ((astray_step_iff (run_cycleFacts h (u + 1))).mpr (Or.inl hNext))
      (fun v huv hv => hBetween v (by omega) hv) hGrant

theorem pushedOn_mono (x : Id p) {t u : Nat} (h : t ≤ u) :
    (pushedOn inputs x 0 t).length ≤ (pushedOn inputs x 0 u).length := by
  rw [pushedOn, pushedOn, ← window_append _ (Nat.zero_le t) h, List.length_append]
  exact Nat.le_add_right _ _

theorem wait_answered (h : Environment inputs) {u : Nat} {x : Id p} (hWait : WaitGranted inputs (word x) u) :
    (pushedOn inputs x 0 u).length ≤ (respondedOn inputs x 0 (u + 1)).length := by
  obtain ⟨hIssued, hData, hReady⟩ := hWait
  have hIds := run_ids h u x
  have hId : idOf p (cmdInAt inputs u).wdata = x := by rw [hData, idOf_word]
  have hResponds : (cmdAt inputs u).freeCmdIds x = false ∨ responds (cmdInAt inputs u) x = true := by
    have hNotServing : ¬ Serving (cmdAt inputs u) := fun hServing => by
      have hCmd := (run_held h u).issue hServing
      rw [(not_wait_of_issued _ hCmd).1] at hIssued
      cases hIssued
    cases hPhase : (cmdAt inputs u).stateQ with
    | ready =>
      have hFinished : wtCmdFinished (cmdAt inputs u) (cmdInAt inputs u) = true := by
        by_contra hNot
        simp only [stateD, hPhase, hIssued, Bool.not_eq_true _ ▸ hNot] at hReady
        cases hReady
      rw [wtCmdFinished, wtCmdIdxD, hIssued, Bool.true_or, if_pos rfl, hId, Bool.or_eq_true] at hFinished
      exact hFinished.imp (fun hFree => by simpa using hFree) id
    | waiting =>
      have hIdx := ((run_held h u).wait hPhase).2
      simp only [stateD, hPhase] at hReady
      right
      by_contra hNot
      rw [hId] at hIdx
      rw [responds, hIdx] at hNot
      simp [hNot] at hReady
    | disabled => exact absurd (Or.inl hPhase) hNotServing
    | waitingBuffer => exact absurd (Or.inr (Or.inl hPhase)) hNotServing
    | waitingID => exact absurd (Or.inr (Or.inr hPhase)) hNotServing
  rw [respondedOn_succ]
  rcases hResponds with hFree | hResp
  · rw [hFree, Bool.toNat_false] at hIds
    omega
  · have hBit := Bool.toNat_le ((cmdAt inputs u).freeCmdIds x)
    rw [hResp, Bool.toNat_true]
    omega

/-- Every granted issue read returns a sound handle exactly when every cycle that serves a granted
read is timely. -/
theorem handle_sound_iff_timely (h : Environment inputs) :
    (∀ t, IssueGranted inputs t → HandleSound inputs t) ↔
      ∀ u t, u ≤ t → NoGrantBetween inputs u t → IssueGranted inputs t →
        Timely (cmdAt inputs u) (cmdInAt inputs u) := by
  constructor
  · intro hSound u t hut hBetween hGrant
    by_contra hBad
    obtain ⟨d, rfl⟩ := Nat.exists_eq_add_of_le hut
    have hMis := misreports_of_astray h ((astray_step_iff (run_cycleFacts h u)).mpr (Or.inr hBad)) hBetween hGrant
    exact hMis.2.2 (hSound (u + d) hGrant).2.1
  · intro hTimely t hGrant
    have hNotAstray : ¬ Astray (cmdAt inputs t) := fun hAstray => by
      obtain ⟨u, hut, hBad, hBetween⟩ := exists_not_timely h t hAstray
      exact hBad (hTimely u t hut.le hBetween hGrant)
    have hNow := hTimely t t (Nat.le_refl t) (fun v htv hvt => absurd htv (Nat.not_le_of_lt hvt)) hGrant
    have hValue : (cmdAt inputs (t + 1)).rdataQ = word (pushedId inputs t) := by
      by_contra hNe
      rcases (astray_step_iff (run_cycleFacts h t)).mp (Or.inr ⟨hGrant.1, hGrant.2, hNe⟩) with hBad | hBad
      · exact hNotAstray hBad
      · exact hBad hNow
    have hPush : cmdBuffPush (cmdAt inputs t) (cmdInAt inputs t) = true := by
      rw [push_eq _ _ (fun hState => ?_) hGrant.1, hGrant.2]
      · rfl
      · have hNot := (run_held h t).not_issued hState
        rw [hGrant.1] at hNot
        cases hNot
    refine ⟨hPush, hValue, fun u htu hWait => ?_⟩
    rw [hValue] at hWait
    exact (pushedOn_mono _ htu).trans (wait_answered h hWait)

end Runs

section Overlap

def deployed : Params := ⟨4, Nat.succ_pos 3, Nat.le_of_ble_eq_true rfl, 4, 0, 0⟩

def idleBus : Input deployed where
  hpuTaskValid := false
  hpuTask := zeroTask
  hpuFeedbackReady := false
  req := false
  add := 0
  wen := true
  wdata := 0
  noDmaReqPending := true
  cmdReady := false
  cmdRespValid := false
  cmdResp := ⟨0, 0, CmdFrontend.zeroId deployed⟩

def busRead (add : BitVec 32) : Input deployed := { idleBus with req := true, add := add }

def someTask : HpuHandlerTask :=
  { zeroTask with handlerTask := { zeroTask.handlerTask with handlerFun := 1 } }

/-- A handler issues a command and ends. Its successor may issue one too, while the feedback of the
first is still buffered, and wait for it on the handle 1. -/
def handover (second : Bool) : Nat → Input deployed
  | 0 => busRead 0x00
  | 1 => { busRead 0x00 with hpuTaskValid := true, hpuTask := someTask }
  | 2 => busRead 0x00
  | 3 => busRead 0x80
  | 4 => { busRead 0x50 with cmdReady := true }
  | 5 => { idleBus with hpuTaskValid := true, hpuTask := someTask }
  | 6 => { busRead 0x80 with req := second }
  | 7 => { busRead 0x80 with req := second, cmdRespValid := true }
  | 8 => { busRead 0x80 with req := second, hpuFeedbackReady := true }
  | 9 => { busRead 0x80 with req := second }
  | 10 => { busRead 0x84 with req := second, wen := false, wdata := 1 }
  | _ => idleBus

theorem handover_idle (second : Bool) {t : Nat} (h : 11 ≤ t) : handover second t = idleBus := by
  obtain ⟨d, rfl⟩ := Nat.exists_eq_add_of_le' h
  rfl

theorem handover_environment (second : Bool) : Environment (handover second) where
  held t hReq hGnt := by
    rcases Nat.lt_or_ge t 11 with hEarly | hLate
    · revert hReq hGnt
      revert t
      cases second <;> decide +kernel
    · rw [handover_idle second hLate] at hReq
      cases hReq
  response t hResp := by
    rcases Nat.lt_or_ge t 11 with hEarly | hLate
    · revert hResp
      revert t
      cases second <;> decide +kernel
    · rw [handover_idle second hLate] at hResp
      cases hResp

/-- The second handler's read returns 1 for a command with id 0, and its wait on 1 is granted
although that command has no response. -/
theorem handover_wrong_handle :
    Environment (handover true) ∧ IssueGranted (handover true) 9 ∧
      pushedId (handover true) 9 = CmdFrontend.zeroId deployed ∧
      (cmdAt (handover true) 10).rdataQ = 1 ∧
      WaitGranted (handover true) (cmdAt (handover true) 10).rdataQ 10 ∧
      (respondedOn (handover true) (CmdFrontend.zeroId deployed) 0 11).length = 1 ∧
      (pushedOn (handover true) (CmdFrontend.zeroId deployed) 0 10).length = 2 :=
  ⟨handover_environment true, ⟨by decide +kernel, by decide +kernel⟩, by decide +kernel,
    by decide +kernel, ⟨by decide +kernel, by decide +kernel, by decide +kernel⟩, by decide +kernel,
    by decide +kernel⟩

theorem handle_sound_single_command :
    IssueGranted (handover false) 3 ∧
      ∀ t, IssueGranted (handover false) t → HandleSound (handover false) t := by
  refine ⟨⟨by decide +kernel, by decide +kernel⟩,
    (handle_sound_iff_timely (handover_environment false)).mpr (fun u t hut _ hGrant => ?_)⟩
  -- The only issue read is the one of cycle 3, which finds no feedback buffered.
  have hLast : t ≤ 3 := by
    by_contra hLate
    rcases Nat.lt_or_ge t 11 with hEarly | hIdle
    · have hNone : ∀ v < 11, 3 < v → CmdFrontend.cmdIssued (cmdInAt (handover false) v) = false := by
        decide +kernel
      rw [IssueGranted, hNone t hEarly (by omega)] at hGrant
      cases hGrant.1
    · have hIssued := hGrant.1
      rw [cmdInAt, handover_idle false hIdle] at hIssued
      cases hIssued
  have hEnabled : ∀ v ≤ 3, (cmdInAt (handover false) v).disabled = false ∧
      (cmdAt (handover false) v).stateQ = .ready := by
    decide +kernel
  obtain ⟨hOpen, hReady⟩ := hEnabled u (hut.trans hLast)
  refine ⟨fun _ _ hDisabled => ?_, fun hState _ => ?_⟩
  · rw [hOpen] at hDisabled
    cases hDisabled
  · rw [hReady] at hState
    cases hState

end Overlap

end FPsPIN.HpuDriver
