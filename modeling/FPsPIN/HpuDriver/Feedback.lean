import Mathlib.Data.Fintype.Card
import FPsPIN.HpuDriver.Handle

/-!
# Feedbacks and the commands behind them

A feedback may wait in the one-entry buffer while the core already runs the
next handler. Tasks are neither lost nor doubled on the way: at any time the
accepted ones are the answered ones, the buffered one and the one in
progress. A feedback leaves only when no command id is in use, and while it
waits no id is assigned, so that the count of pending commands goes down and
the feedback leaves once they are answered.
-/

namespace FPsPIN.HpuDriver

open Config CommonCells Run

def feedbackOf (task : HpuHandlerTask) : TaskFeedbackDescr where
  feedbackDescr :=
    { pktAddr := task.handlerTask.pktAddr
      pktSize := task.handlerTask.pktSize
      msgid := task.handlerTask.msgid
      triggerFeedback := task.handlerTask.triggerFeedback }
  pktPtr := task.pktPtr

namespace TaskFrontend

variable (s : State) (i : Input)

def accepts : List HpuHandlerTask := if hpuTaskReady s && i.hpuTaskValid then [i.hpuTask] else []

def sends : List TaskFeedbackDescr := if feedbackBuffPop s i then s.feedbackBuff.head?.toList else []

def inProgress : Bool := s.stateQ == .running || s.stateQ == .sendingFeedback

/-- Feedbacks that are due: the buffered one and that of the task in progress. -/
def due : List TaskFeedbackDescr := s.feedbackBuff ++ if inProgress s then [feedbackOf s.currentTaskQ] else []

theorem length_feedbackBuff_step (h : s.feedbackBuff.length ≤ 1) : (step s i).feedbackBuff.length ≤ 1 :=
  length_fifoV3Step_le h

theorem feedbackBuffPush_lt (h : s.feedbackBuff.length ≤ 1) (hPush : feedbackBuffPush s i = true) :
    s.feedbackBuff.length < 1 := by
  obtain ⟨hRoom, -⟩ := Bool.and_eq_true_iff.mp hPush
  have hNe : s.feedbackBuff.length ≠ 1 := by simpa [feedbackBuffFull] using hRoom
  omega

theorem feedbackBuff_account (h : s.feedbackBuff.length ≤ 1) :
    sends s i ++ (step s i).feedbackBuff =
      s.feedbackBuff ++ if feedbackBuffPush s i then [feedbackOf s.currentTaskQ] else [] := by
  rw [sends, toList_head?]
  exact take_append_fifoV3Step (feedbackBuffPush_lt s i h)

/-- A task in progress stays, or its feedback is pushed; an accepted one is in progress next. -/
theorem inProgress_account :
    (if inProgress s then [feedbackOf s.currentTaskQ] else []) ++ (accepts s i).map feedbackOf =
      (if feedbackBuffPush s i then [feedbackOf s.currentTaskQ] else []) ++
        if inProgress (step s i) then [feedbackOf (step s i).currentTaskQ] else [] := by
  have hNext : inProgress (step s i) = (stateD s i == .running || stateD s i == .sendingFeedback) := rfl
  have hTask : (step s i).currentTaskQ =
      if s.stateQ == .idle && i.hpuTaskValid then i.hpuTask else s.currentTaskQ := rfl
  rw [hNext, hTask]
  cases hState : s.stateQ with
  | init =>
    cases hReq : i.req <;>
      simp [inProgress, accepts, hpuTaskReady, feedbackBuffPush, triggerFeedback, gnt, stateD, hState, hReq]
  | idle =>
    cases hValid : i.hpuTaskValid <;>
      simp [inProgress, accepts, hpuTaskReady, feedbackBuffPush, triggerFeedback, gnt, stateD, hState, hValid]
  | running =>
    cases hTrigger : triggerFeedback s i <;> cases hFull : feedbackBuffFull s <;>
      simp [inProgress, accepts, hpuTaskReady, feedbackBuffPush, stateD, hState, hTrigger, hFull]
  | sendingFeedback =>
    cases hFull : feedbackBuffFull s <;>
      simp [inProgress, accepts, hpuTaskReady, feedbackBuffPush, stateD, hState, hFull]

theorem due_step (h : s.feedbackBuff.length ≤ 1) :
    due s ++ (accepts s i).map feedbackOf = sends s i ++ due (step s i) := by
  rw [due, due, List.append_assoc, inProgress_account, ← List.append_assoc, ← feedbackBuff_account s i h,
    List.append_assoc]

theorem feedbackBuff_step (h : s.feedbackBuff ≠ []) (hPop : feedbackBuffPop s i = false) :
    (step s i).feedbackBuff ≠ [] := by
  change fifoV3Step 1 s.feedbackBuff (feedbackBuffPush s i) (hpuFeedback s) (feedbackBuffPop s i) ≠ []
  rw [fifoV3Step, hPop, if_neg Bool.false_ne_true]
  exact List.append_ne_nil_of_left_ne_nil h _

theorem feedbackBuff_of_push (hEmpty : s.feedbackBuff = [])
    (hEnd : triggerFeedback s i = true ∨ s.stateQ = .sendingFeedback) : (step s i).feedbackBuff ≠ [] := by
  have hPush : feedbackBuffPush s i = true := by
    rcases hEnd with hEnd | hEnd <;> simp [feedbackBuffPush, feedbackBuffFull, hEmpty, hEnd]
  change fifoV3Step 1 s.feedbackBuff (feedbackBuffPush s i) (hpuFeedback s) (feedbackBuffPop s i) ≠ []
  rw [fifoV3Step, hPush, hEmpty]
  cases feedbackBuffPop s i <;> exact List.cons_ne_nil _ _

end TaskFrontend

namespace CmdFrontend

variable {p : Params} (s : State p) (i : Input p)

/-- Responses that are awaited: one per id in use, and one more by a command that waits for an id. -/
def awaited : Nat := (Finset.univ.filter (fun x => s.freeCmdIds x = true)).card + (s.stateQ == .waitingID).toNat

theorem assignId_disabled (h : i.disabled = true) : assignId s i = false := by
  cases hState : s.stateQ <;> simp [assignId, hState, h]

theorem freeCmdIdsD_disabled (h : i.disabled = true) :
    freeCmdIdsD s i =
      if s.stateQ != .waitingID && i.cmdRespValid then Function.update s.freeCmdIds i.cmdRespId false
      else s.freeCmdIds := by
  simp [freeCmdIdsD, assignId_disabled s i h]

theorem stateD_disabled (h : i.disabled = true) (hState : s.stateQ ≠ .waitingID) : stateD s i ≠ .waitingID := by
  cases hPhase : s.stateQ with
  | waitingID => exact absurd hPhase hState
  | ready => simp only [stateD, hPhase, h]; split_ifs <;> simp
  | disabled => simp [stateD, hPhase, h]
  | waitingBuffer => simp only [stateD, hPhase]; split_ifs <;> simp
  | waiting => simp only [stateD, hPhase]; split_ifs <;> simp

/-- While commands are disabled every response brings the count of awaited ones down. -/
theorem awaited_step (h : i.disabled = true) (hResp : i.cmdRespValid = true → s.freeCmdIds i.cmdRespId = true) :
    awaited (step s i) + i.cmdRespValid.toNat ≤ awaited s := by
  have hBits : (step s i).freeCmdIds = freeCmdIdsD s i := rfl
  have hPhase : (step s i).stateQ = stateD s i := rfl
  rw [awaited, awaited, hBits, hPhase, freeCmdIdsD_disabled s i h]
  by_cases hState : s.stateQ = .waitingID
  · simp only [hState, bne_self_eq_false, Bool.false_and, Bool.false_eq_true, if_false, BEq.rfl, stateD]
    cases i.cmdRespValid <;> cases cmdBuffFull s <;> simp [Phase.beq_eq]
  · have hGuard : (s.stateQ != .waitingID) = true := by simpa using hState
    rw [hGuard, beq_false_of_ne hState, beq_false_of_ne (stateD_disabled s i h hState), Bool.true_and]
    cases hValid : i.cmdRespValid with
    | false => exact Nat.le_refl _
    | true =>
      have hErase : Finset.univ.filter (fun x => Function.update s.freeCmdIds i.cmdRespId false x = true) =
          (Finset.univ.filter (fun x => s.freeCmdIds x = true)).erase i.cmdRespId := by
        ext x
        simp only [Finset.mem_filter, Finset.mem_univ, true_and, Finset.mem_erase, Function.update_apply]
        split_ifs with hx <;> simp [hx]
      have hMem : i.cmdRespId ∈ Finset.univ.filter (fun x => s.freeCmdIds x = true) :=
        Finset.mem_filter.mpr ⟨Finset.mem_univ _, hResp hValid⟩
      have hCard := Finset.card_erase_add_one hMem
      rw [if_pos rfl, hErase, Bool.toNat_true, Bool.toNat_false]
      omega

theorem noPending_step (h : i.disabled = true) (hNone : noPendingCmd s = true) :
    noPendingCmd (step s i) = true := by
  rw [noPendingCmd, decide_eq_true_eq] at hNone ⊢
  intro x
  change freeCmdIdsD s i x = false
  rw [freeCmdIdsD_disabled s i h]
  split_ifs
  · rw [Function.update_apply]
    split_ifs
    · rfl
    · exact hNone x
  · exact hNone x

end CmdFrontend

section Runs

variable {p : Params} (inputs : Nat → Input p)

def taskAt (t : Nat) : TaskFrontend.State := (runAt inputs t).task

def taskInAt (t : Nat) : TaskFrontend.Input := taskInput (runAt inputs t) (inputs t)

theorem taskAt_succ (t : Nat) : taskAt inputs (t + 1) = TaskFrontend.step (taskAt inputs t) (taskInAt inputs t) := rfl

def acceptedOn (t : Nat) : List HpuHandlerTask :=
  window (fun u => TaskFrontend.accepts (taskAt inputs u) (taskInAt inputs u)) 0 t

def sentOn (t : Nat) : List TaskFeedbackDescr :=
  window (fun u => TaskFrontend.sends (taskAt inputs u) (taskInAt inputs u)) 0 t

def Sends (t : Nat) : Prop := TaskFrontend.feedbackBuffPop (taskAt inputs t) (taskInAt inputs t) = true

/-- Handlers end, commands are answered, and again and again the receiver of feedbacks is ready with no
DMA request pending. -/
structure Fair : Prop where
  ends : ∀ t, (taskAt inputs t).stateQ = .running →
    ∃ u, t ≤ u ∧ TaskFrontend.triggerFeedback (taskAt inputs u) (taskInAt inputs u) = true
  answered : ∀ t x, (cmdAt inputs t).freeCmdIds x = true →
    ∃ u, t ≤ u ∧ CmdFrontend.responds (cmdInAt inputs u) x = true
  ready : ∀ t, ∃ u, t ≤ u ∧ (inputs u).hpuFeedbackReady = true ∧ (inputs u).noDmaReqPending = true

/-- One feedback per accepted task, in the order of acceptance and with the task's descriptor. When it
is sent all commands pushed so far are answered, among them those pushed while the task was running;
and under fairness it is sent. -/
structure FeedbackContract : Prop where
  order : ∀ t, (acceptedOn inputs t).map feedbackOf = sentOn inputs t ++ TaskFrontend.due (taskAt inputs t)
  answered : ∀ t, Sends inputs t → ∀ x, (respondedOn inputs x 0 t).length = (pushedOn inputs x 0 t).length
  own : ∀ t u x, Sends inputs t → (acceptedOn inputs u).length = (sentOn inputs t).length + 1 →
    (taskAt inputs u).stateQ = .running → CmdFrontend.pushes (cmdAt inputs u) (cmdInAt inputs u) x = true →
    (pushedOn inputs x 0 (u + 1)).length ≤ (respondedOn inputs x 0 t).length
  served : Fair inputs → ∀ t n, n < (acceptedOn inputs t).length → ∃ u, n < (sentOn inputs u).length

theorem run_feedbackBuff (t : Nat) : (taskAt inputs t).feedbackBuff.length ≤ 1 := by
  induction t with
  | zero => exact Nat.zero_le 1
  | succ t ih => exact TaskFrontend.length_feedbackBuff_step _ _ ih

theorem accepted_eq (t : Nat) :
    (acceptedOn inputs t).map feedbackOf = sentOn inputs t ++ TaskFrontend.due (taskAt inputs t) := by
  induction t with
  | zero => rfl
  | succ t ih =>
    have hStep := TaskFrontend.due_step (taskAt inputs t) (taskInAt inputs t) (run_feedbackBuff inputs t)
    rw [acceptedOn, sentOn, window_succ _ (Nat.zero_le t), window_succ _ (Nat.zero_le t), ← acceptedOn,
      ← sentOn, List.map_append, ih, List.append_assoc, hStep, taskAt_succ, List.append_assoc]

theorem length_accepted (t : Nat) :
    (acceptedOn inputs t).length = (sentOn inputs t).length + (TaskFrontend.due (taskAt inputs t)).length := by
  have hLength := congrArg List.length (accepted_eq inputs t)
  rwa [List.length_map, List.length_append] at hLength

theorem accepted_mono {t u : Nat} (h : t ≤ u) : (acceptedOn inputs t).length ≤ (acceptedOn inputs u).length :=
  (window_mono _ h).length_le

theorem sent_mono {t u : Nat} (h : t ≤ u) : (sentOn inputs t).length ≤ (sentOn inputs u).length :=
  (window_mono _ h).length_le

variable {inputs}

theorem buffered_of_sends {t : Nat} (h : Sends inputs t) : (taskAt inputs t).feedbackBuff ≠ [] := by
  intro hEmpty
  simp [Sends, TaskFrontend.feedbackBuffPop, TaskFrontend.hpuFeedbackValid, TaskFrontend.feedbackBuffEmpty,
    hEmpty] at h

theorem buffered_succ {t : Nat} (hBuff : (taskAt inputs t).feedbackBuff ≠ []) (h : ¬ Sends inputs t) :
    (taskAt inputs (t + 1)).feedbackBuff ≠ [] := by
  rw [Sends, Bool.not_eq_true] at h
  exact TaskFrontend.feedbackBuff_step _ _ hBuff h

theorem sentOn_of_sends {t : Nat} (h : Sends inputs t) :
    (sentOn inputs (t + 1)).length = (sentOn inputs t).length + 1 := by
  have hPop : TaskFrontend.feedbackBuffPop (taskAt inputs t) (taskInAt inputs t) = true := h
  rw [sentOn, window_succ _ (Nat.zero_le t), List.length_append, ← sentOn, TaskFrontend.sends, if_pos hPop]
  obtain ⟨feedback, rest, hCons⟩ := List.exists_cons_of_ne_nil (buffered_of_sends h)
  rw [hCons]
  rfl

theorem noPending_of_sends {t : Nat} (h : Sends inputs t) : CmdFrontend.noPendingCmd (cmdAt inputs t) = true := by
  simp only [Sends, TaskFrontend.feedbackBuffPop, TaskFrontend.hpuFeedbackValid, Bool.and_eq_true] at h
  have hCan : canSendFeedback (runAt inputs t) (inputs t) = true := h.2.1
  rw [canSendFeedback, Bool.and_eq_true] at hCan
  exact hCan.2

theorem responded_le (h : Environment inputs) (t : Nat) (x : Id p) :
    (respondedOn inputs x 0 t).length ≤ (pushedOn inputs x 0 t).length := by
  rw [length_respondedOn, length_pushedOn]
  exact CmdFrontend.answered_le h.runs t x

theorem responded_of_noPending (h : Environment inputs) {t : Nat}
    (hNone : CmdFrontend.noPendingCmd (cmdAt inputs t) = true) (x : Id p) :
    (respondedOn inputs x 0 t).length = (pushedOn inputs x 0 t).length := by
  have hCount := run_ids h t x
  have hLe := responded_le h t x
  rw [CmdFrontend.noPendingCmd, decide_eq_true_eq] at hNone
  rw [hNone x, Bool.toNat_false] at hCount
  omega

theorem sent_of_running {u : Nat} (hRunning : (taskAt inputs u).stateQ = .running) :
    (sentOn inputs u).length < (acceptedOn inputs u).length := by
  rw [length_accepted inputs, TaskFrontend.due, TaskFrontend.inProgress, hRunning]
  simp

section Progress

theorem disabled_of_buffered {t : Nat} (h : (taskAt inputs t).feedbackBuff ≠ []) :
    (cmdInAt inputs t).disabled = true := by
  change (!(taskAt inputs t).feedbackBuff.isEmpty) = true
  rw [List.isEmpty_eq_false_iff.mpr h]
  rfl

/-- A buffered feedback is sent before cycle u, or it still waits for no more responses than before. -/
theorem sent_or_waits (h : Environment inputs) {t u : Nat} (htu : t ≤ u)
    (hBuff : (taskAt inputs t).feedbackBuff ≠ []) :
    (∃ v, t ≤ v ∧ v < u ∧ Sends inputs v) ∨
      ((taskAt inputs u).feedbackBuff ≠ [] ∧
        CmdFrontend.awaited (cmdAt inputs u) ≤ CmdFrontend.awaited (cmdAt inputs t) ∧
        (CmdFrontend.noPendingCmd (cmdAt inputs t) = true → CmdFrontend.noPendingCmd (cmdAt inputs u) = true)) := by
  obtain ⟨d, rfl⟩ := Nat.exists_eq_add_of_le htu
  induction d with
  | zero => exact Or.inr ⟨hBuff, Nat.le_refl _, id⟩
  | succ d ih =>
    rcases ih (Nat.le_add_right t d) with ⟨v, htv, hvu, hSends⟩ | ⟨hStill, hAwaited, hNone⟩
    · exact Or.inl ⟨v, htv, by omega, hSends⟩
    · by_cases hSends : Sends inputs (t + d)
      · exact Or.inl ⟨t + d, Nat.le_add_right t d, by omega, hSends⟩
      · have hDisabled := disabled_of_buffered hStill
        have hStep := CmdFrontend.awaited_step _ _ hDisabled (CmdFrontend.response_used h.runs (t + d))
        refine Or.inr ⟨buffered_succ hStill hSends, ?_, ?_⟩
        · rw [← Nat.add_assoc, cmdAt_succ]
          omega
        · intro hStart
          exact CmdFrontend.noPending_step _ _ hDisabled (hNone hStart)

theorem buffered_sent (h : Environment inputs) (hFair : Fair inputs) {t : Nat}
    (hBuff : (taskAt inputs t).feedbackBuff ≠ []) : ∃ u, t ≤ u ∧ Sends inputs u := by
  refine reached_of_closer (fun u => (taskAt inputs u).feedbackBuff ≠ [])
    (fun u => CmdFrontend.awaited (cmdAt inputs u)) (fun t hBuff => ?_) hBuff
  by_cases hNone : CmdFrontend.noPendingCmd (cmdAt inputs t) = true
  · obtain ⟨u, htu, hReady, hDma⟩ := hFair.ready t
    rcases sent_or_waits h htu hBuff with ⟨v, htv, _, hSends⟩ | ⟨hStill, _, hKept⟩
    · exact ⟨v, htv, Or.inl hSends⟩
    · refine ⟨u, htu, Or.inl ?_⟩
      have hCan : canSendFeedback (runAt inputs u) (inputs u) = true := by
        rw [canSendFeedback, hDma, Bool.true_and]
        exact hKept hNone
      change ((inputs u).hpuFeedbackReady &&
        (canSendFeedback (runAt inputs u) (inputs u) && !(taskAt inputs u).feedbackBuff.isEmpty)) = true
      rw [hReady, hCan, List.isEmpty_eq_false_iff.mpr hStill]
      rfl
  · have hUsed : ∃ x, (cmdAt inputs t).freeCmdIds x = true := by
      rw [CmdFrontend.noPendingCmd, decide_eq_true_eq] at hNone
      push Not at hNone
      obtain ⟨x, hx⟩ := hNone
      exact ⟨x, by simpa using hx⟩
    obtain ⟨x, hx⟩ := hUsed
    obtain ⟨u, htu, hResp⟩ := hFair.answered t x hx
    rcases sent_or_waits h htu hBuff with ⟨v, htv, _, hSends⟩ | ⟨hStill, hAwaited, _⟩
    · exact ⟨v, htv, Or.inl hSends⟩
    · by_cases hSends : Sends inputs u
      · exact ⟨u, htu, Or.inl hSends⟩
      · -- The response arrives while the feedback still waits.
        have hStep := CmdFrontend.awaited_step _ _ (disabled_of_buffered hStill) (CmdFrontend.response_used h.runs u)
        rw [CmdFrontend.responds, Bool.and_eq_true] at hResp
        rw [hResp.1, Bool.toNat_true, ← cmdAt_succ] at hStep
        exact ⟨u + 1, Nat.le_succ_of_le htu, Or.inr ⟨buffered_succ hStill hSends, by omega⟩⟩

theorem due_sent (h : Environment inputs) (hFair : Fair inputs) {t : Nat}
    (hDue : TaskFrontend.due (taskAt inputs t) ≠ []) : ∃ u, t ≤ u ∧ Sends inputs u := by
  by_cases hBuff : (taskAt inputs t).feedbackBuff = []
  · have hEnds : ∃ u, t ≤ u ∧ (TaskFrontend.triggerFeedback (taskAt inputs u) (taskInAt inputs u) = true ∨
        (taskAt inputs u).stateQ = .sendingFeedback) := by
      have hProgress : TaskFrontend.inProgress (taskAt inputs t) = true := by
        by_contra hNone
        rw [TaskFrontend.due, hBuff, if_neg hNone] at hDue
        exact hDue rfl
      simp only [TaskFrontend.inProgress, Bool.or_eq_true, beq_iff_eq] at hProgress
      rcases hProgress with hRunning | hSending
      · obtain ⟨u, htu, hEnd⟩ := hFair.ends t hRunning
        exact ⟨u, htu, Or.inl hEnd⟩
      · exact ⟨t, Nat.le_refl t, Or.inr hSending⟩
    obtain ⟨u, htu, hEnd⟩ := hEnds
    have hFull : ∃ v, t ≤ v ∧ (taskAt inputs v).feedbackBuff ≠ [] := by
      by_cases hEmpty : (taskAt inputs u).feedbackBuff = []
      · exact ⟨u + 1, Nat.le_succ_of_le htu, TaskFrontend.feedbackBuff_of_push _ _ hEmpty hEnd⟩
      · exact ⟨u, htu, hEmpty⟩
    obtain ⟨v, htv, hFull⟩ := hFull
    obtain ⟨w, hvw, hSends⟩ := buffered_sent h hFair hFull
    exact ⟨w, Nat.le_trans htv hvw, hSends⟩
  · exact buffered_sent h hFair hBuff

theorem accepted_sent (h : Environment inputs) (hFair : Fair inputs) {t n : Nat}
    (hn : n < (acceptedOn inputs t).length) : ∃ u, n < (sentOn inputs u).length := by
  have hReached : ∃ u, t ≤ u ∧ n < (sentOn inputs u).length := by
    refine reached_of_closer (fun v => n < (acceptedOn inputs v).length)
      (fun v => n + 1 - (sentOn inputs v).length) (fun v hAccepted => ?_) hn
    rcases Nat.lt_or_ge n (sentOn inputs v).length with hSent | hSent
    · exact ⟨v, Nat.le_refl v, Or.inl hSent⟩
    · have hDue : TaskFrontend.due (taskAt inputs v) ≠ [] := by
        intro hNone
        have hLength := length_accepted inputs v
        rw [hNone, List.length_nil] at hLength
        omega
      obtain ⟨w, hvw, hSends⟩ := due_sent h hFair hDue
      have hMore := sentOn_of_sends hSends
      have hMono := sent_mono inputs hvw
      have hKept := accepted_mono inputs (Nat.le_succ_of_le hvw)
      exact ⟨w + 1, Nat.le_succ_of_le hvw, Or.inr ⟨Nat.lt_of_lt_of_le hAccepted hKept, by omega⟩⟩
  obtain ⟨u, _, hSent⟩ := hReached
  exact ⟨u, hSent⟩

end Progress

/-- Completion of a task implies completion of its commands. -/
theorem feedback_contract (h : Environment inputs) : FeedbackContract inputs where
  order := accepted_eq inputs
  answered t hSends x := responded_of_noPending h (noPending_of_sends hSends) x
  own t u x hSends hTask hRunning hPush := by
    have hBefore : u < t := by
      by_contra hut
      have hSent := sent_of_running hRunning
      rcases Nat.lt_or_ge t u with hLt | hGe
      · have hMono := sent_mono inputs (Nat.succ_le_of_lt hLt)
        rw [Nat.succ_eq_add_one, sentOn_of_sends hSends] at hMono
        omega
      · -- In the cycle in which a feedback is sent it is still buffered, so two tasks are unfinished.
        have hEq : u = t := by omega
        subst hEq
        have hLength := length_accepted inputs u
        rw [TaskFrontend.due, TaskFrontend.inProgress, hRunning] at hLength
        have hPos := List.length_pos_of_ne_nil (buffered_of_sends hSends)
        simp at hLength
        omega
    rw [responded_of_noPending h (noPending_of_sends hSends)]
    exact (window_mono _ (Nat.succ_le_of_lt hBefore)).length_le
  served hFair t n hn := accepted_sent h hFair hn

end Runs

section Buffered

/-- A handler issues a command and ends; a task without handler follows while the command is pending. -/
def bufferedTwice : Nat → Input deployed
  | 0 => busRead 0x00
  | 1 => { busRead 0x00 with hpuTaskValid := true, hpuTask := someTask }
  | 2 => busRead 0x00
  | 3 => busRead 0x80
  | 4 => { busRead 0x50 with cmdReady := true }
  | 5 => { idleBus with hpuTaskValid := true, hpuFeedbackReady := true }
  | 6 => { idleBus with cmdRespValid := true, hpuFeedbackReady := true }
  | _ => { idleBus with hpuFeedbackReady := true }

theorem bufferedTwice_idle {t : Nat} (h : 7 ≤ t) :
    bufferedTwice t = { idleBus with hpuFeedbackReady := true } := by
  obtain ⟨d, rfl⟩ := Nat.exists_eq_add_of_le' h
  rfl

theorem bufferedTwice_environment : Environment bufferedTwice where
  held t hReq hGnt := by
    rcases Nat.lt_or_ge t 7 with hEarly | hLate
    · revert hReq hGnt
      revert t
      decide +kernel
    · rw [bufferedTwice_idle hLate] at hReq
      cases hReq
  response t hResp := by
    rcases Nat.lt_or_ge t 7 with hEarly | hLate
    · revert hResp
      revert t
      decide +kernel
    · rw [bufferedTwice_idle hLate] at hResp
      cases hResp

theorem bufferedTwice_settled {t : Nat} (h : 10 ≤ t) :
    (taskAt bufferedTwice t).stateQ = .idle ∧ (cmdAt bufferedTwice t).stateQ = .ready ∧
      ∀ x, (cmdAt bufferedTwice t).freeCmdIds x = false := by
  obtain ⟨d, rfl⟩ := Nat.exists_eq_add_of_le h
  induction d with
  | zero => decide +kernel
  | succ d ih =>
    obtain ⟨hTask, hCmd, hFree⟩ := ih (by omega)
    have hIdle := bufferedTwice_idle (t := 10 + d) (by omega)
    have hIssued : CmdFrontend.cmdIssued (cmdInAt bufferedTwice (10 + d)) = false := by rw [cmdInAt, hIdle]; rfl
    have hWait : CmdFrontend.waitIssued (cmdInAt bufferedTwice (10 + d)) = false := by rw [cmdInAt, hIdle]; rfl
    have hResp : (cmdInAt bufferedTwice (10 + d)).cmdRespValid = false := by rw [cmdInAt, hIdle]; rfl
    have hNone : (taskInAt bufferedTwice (10 + d)).hpuTaskValid = false := by rw [taskInAt, hIdle]; rfl
    refine ⟨?_, ?_, fun x => ?_⟩
    · change TaskFrontend.stateD (taskAt bufferedTwice (10 + d)) (taskInAt bufferedTwice (10 + d)) = _
      rw [TaskFrontend.stateD, hTask]
      exact if_neg (by simp [hNone])
    · change CmdFrontend.stateD (cmdAt bufferedTwice (10 + d)) (cmdInAt bufferedTwice (10 + d)) = _
      rw [CmdFrontend.stateD_ready_not_issued _ _ hCmd hIssued, hWait]
      rfl
    · change CmdFrontend.freeCmdIdsD (cmdAt bufferedTwice (10 + d)) (cmdInAt bufferedTwice (10 + d)) x = false
      rw [CmdFrontend.freeCmdIdsD, CmdFrontend.assignId, hCmd]
      simp only [hIssued, hResp, Bool.false_and, Bool.and_false, Bool.false_eq_true, if_false]
      exact hFree x

theorem bufferedTwice_fair : Fair bufferedTwice where
  ends t hRunning := by
    have hEarly : ∀ t < 10, (taskAt bufferedTwice t).stateQ = .running → t ≤ 4 := by decide +kernel
    have hEnd : TaskFrontend.triggerFeedback (taskAt bufferedTwice 4) (taskInAt bufferedTwice 4) = true := by
      decide +kernel
    rcases Nat.lt_or_ge t 10 with hLt | hGe
    · exact ⟨4, hEarly t hLt hRunning, hEnd⟩
    · rw [(bufferedTwice_settled hGe).1] at hRunning
      cases hRunning
  answered t x hUsed := by
    have hEarly : ∀ t < 10, ∀ x, (cmdAt bufferedTwice t).freeCmdIds x = true →
        t ≤ 6 ∧ CmdFrontend.responds (cmdInAt bufferedTwice 6) x = true := by
      decide +kernel
    rcases Nat.lt_or_ge t 10 with hLt | hGe
    · obtain ⟨hLe, hResp⟩ := hEarly t hLt x hUsed
      exact ⟨6, hLe, hResp⟩
    · rw [(bufferedTwice_settled hGe).2.2 x] at hUsed
      cases hUsed
  ready t := by
    refine ⟨t + 7, Nat.le_add_right t 7, ?_⟩
    rw [bufferedTwice_idle (Nat.le_add_left 7 t)]
    exact ⟨rfl, rfl⟩

theorem feedback_contract_bufferedTwice :
    (acceptedOn bufferedTwice 10).length = 2 ∧ (taskAt bufferedTwice 6).feedbackBuff ≠ [] ∧
      Fair bufferedTwice ∧ FeedbackContract bufferedTwice :=
  ⟨by decide +kernel, by decide +kernel, bufferedTwice_fair, feedback_contract bufferedTwice_environment⟩

end Buffered

end FPsPIN.HpuDriver
