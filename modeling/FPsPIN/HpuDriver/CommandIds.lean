import Mathlib.Data.List.Count
import FPsPIN.Lib.Run
import FPsPIN.HpuDriver.CmdFrontend

/-!
# Command ids in use

The core keeps a request on the bus until it is granted, and a response
answers a command that was pushed and not answered before. Under these two
assumptions a bit of free_cmd_ids_q counts: it is set while a pushed command
with this id is unanswered, or while the id is reserved for a command that
waits for buffer space. So no two unanswered commands have the same id. The
results are about the frontend alone, whatever its other inputs do.
-/

namespace FPsPIN.HpuDriver

open Config CommonCells Run

namespace CmdFrontend

variable {p : Params} (s : State p) (i : Input p)

def Serving : Prop := s.stateQ = .disabled ∨ s.stateQ = .waitingBuffer ∨ s.stateQ = .waitingID

/-- The id of a command that waits for buffer space. -/
def reserves (x : Id p) : Bool := s.stateQ == .waitingBuffer && s.cmdQ.cmdId.localCmdId == x

def pushes (x : Id p) : Bool := cmdBuffPush s i && localCmdIdD s i == x

def responds (x : Id p) : Bool := i.cmdRespValid && i.cmdRespId == x

theorem cmdIdx_free (h : noFreeCmdIds s = false) : s.freeCmdIds (cmdIdx s) = false := by
  have hSome : ¬ ∀ x < p.numCmds, freeBit s x = false := by
    intro hAll
    rw [noFreeCmdIds, lzcEmpty_eq_true.mpr hAll] at h
    cases h
  push Not at hSome
  obtain ⟨x, hx, hFree⟩ := hSome
  obtain ⟨hLt, hBit, _⟩ := lzcCnt_spec (freeBit s) hx (by simpa using hFree)
  rw [freeBit, dif_pos hLt] at hBit
  simpa [cmdIdx] using hBit

theorem Phase.beq_eq (a b : Phase) : (a == b) = decide (a = b) := rfl

theorem not_wait_of_issued (h : cmdIssued i = true) : waitIssued i = false ∧ testIssued i = false := by
  simp only [cmdIssued, Bool.and_eq_true, beq_iff_eq] at h
  simp [waitIssued, testIssued, h]

theorem stateD_ready_issued (hState : s.stateQ = .ready) (hIssued : cmdIssued i = true) :
    stateD s i =
      if i.disabled then .disabled
      else if noFreeCmdIds s then .waitingID
      else if cmdBuffFull s then .waitingBuffer
      else .ready := by
  simp [stateD, hState, hIssued, not_wait_of_issued i hIssued]

theorem stateD_ready_not_issued (hState : s.stateQ = .ready) (hIssued : cmdIssued i = false) :
    stateD s i = if waitIssued i && !wtCmdFinished s i then .waiting else .ready := by
  simp [stateD, hState, hIssued]

theorem push_eq (hState : s.stateQ ≠ .waiting) (hIssued : cmdIssued i = true) :
    cmdBuffPush s i = (stateD s i == .ready) := by
  rw [cmdBuffPush, hIssued, Bool.and_true]
  cases hPhase : s.stateQ with
  | waiting => exact absurd hPhase hState
  | ready =>
    rw [stateD_ready_issued s i hPhase hIssued]
    cases i.disabled <;> cases noFreeCmdIds s <;> cases cmdBuffFull s <;> rfl
  | disabled =>
    simp only [stateD, hPhase]
    cases i.disabled <;> cases noFreeCmdIds s <;> cases cmdBuffFull s <;> rfl
  | waitingID =>
    simp only [stateD, hPhase]
    cases i.cmdRespValid <;> cases cmdBuffFull s <;> rfl
  | waitingBuffer =>
    simp only [stateD, hPhase]
    cases cmdBuffFull s <;> rfl

def assigns (x : Id p) : Bool := assignId s i && cmdIdx s == x

theorem localCmdIdD_eq (hState : s.stateQ ≠ .waitingID) :
    localCmdIdD s i = if assignId s i then cmdIdx s else s.cmdQ.cmdId.localCmdId := by
  rw [localCmdIdD]
  split
  · exact absurd ‹_› hState
  · rfl

theorem assignId_free (h : assignId s i = true) : s.freeCmdIds (cmdIdx s) = false := by
  refine cmdIdx_free s ?_
  cases hState : s.stateQ <;> simp_all [assignId]

/-- Outside phase WaitingID an id becomes used by assignment and free by its response. -/
theorem freeCmdIdsD_count (hState : s.stateQ ≠ .waitingID)
    (hResp : i.cmdRespValid = true → s.freeCmdIds i.cmdRespId = true) (x : Id p) :
    (freeCmdIdsD s i x).toNat + (responds i x).toNat = (s.freeCmdIds x).toNat + (assigns s i x).toNat := by
  have hGuard : (s.stateQ != .waitingID) = true := by simpa using hState
  rw [freeCmdIdsD, hGuard, Bool.true_and, responds, assigns]
  by_cases hR : i.cmdRespValid = true ∧ i.cmdRespId = x
  · -- The answered id was in use, so it is not the one assigned now.
    obtain ⟨hR, rfl⟩ := hR
    have hOther : (assignId s i && cmdIdx s == i.cmdRespId) = false := by
      by_contra hSame
      rw [Bool.not_eq_false, Bool.and_eq_true, beq_iff_eq] at hSame
      have hFree := assignId_free s i hSame.1
      rw [hSame.2, hResp hR] at hFree
      cases hFree
    rw [hOther]
    simp [hR, hResp hR]
  · have hNone : (i.cmdRespValid && i.cmdRespId == x) = false := by simpa using hR
    have hKeep : ∀ bits : Id p → Bool,
        (if i.cmdRespValid then Function.update bits i.cmdRespId false else bits) x = bits x := by
      intro bits
      split_ifs with hV
      · rw [Function.update_of_ne (fun hEq => hR ⟨hV, hEq.symm⟩)]
      · rfl
    rw [hNone, hKeep]
    by_cases hA : assignId s i = true ∧ cmdIdx s = x
    · obtain ⟨hA, rfl⟩ := hA
      simp [hA, assignId_free s i hA]
    · have hOther : (assignId s i && cmdIdx s == x) = false := by simpa using hA
      rw [hOther]
      split_ifs with hAssign
      · rw [Function.update_of_ne (fun hEq => hA ⟨hAssign, hEq.symm⟩)]
      · rfl

theorem freeCmdIdsD_waitingID (hState : s.stateQ = .waitingID) : freeCmdIdsD s i = s.freeCmdIds := by
  simp [freeCmdIdsD, assignId, hState]

theorem assigned_pushed_or_reserved (hState : s.stateQ ≠ .waitingID)
    (hServing : Serving s → cmdIssued i = true) (hWaiting : s.stateQ = .waiting → cmdIssued i = false)
    (x : Id p) :
    (assigns s i x).toNat + (reserves s x).toNat =
      (pushes s i x).toNat + (reserves (step s i) x).toNat := by
  have hId := localCmdIdD_eq s i hState
  have hNext : reserves (step s i) x = (stateD s i == .waitingBuffer && localCmdIdD s i == x) := rfl
  rw [hNext, assigns, reserves, pushes, hId]
  cases hPhase : s.stateQ with
  | waitingID => exact absurd hPhase hState
  | waiting =>
    have hIssued := hWaiting hPhase
    simp only [assignId, cmdBuffPush, stateD, hPhase, hIssued]
    cases i.cmdRespValid && i.cmdRespId == s.wtCmdIdxQ <;> simp [Phase.beq_eq]
  | ready =>
    cases hIssued : cmdIssued i with
    | false =>
      rw [cmdBuffPush, hIssued, stateD_ready_not_issued s i hPhase hIssued]
      simp only [assignId, hPhase, hIssued]
      cases waitIssued i && !wtCmdFinished s i <;> simp [Phase.beq_eq]
    | true =>
      rw [push_eq s i (by rw [hPhase]; decide) hIssued, stateD_ready_issued s i hPhase hIssued]
      simp only [assignId, hPhase, hIssued]
      cases i.disabled <;> cases noFreeCmdIds s <;> cases cmdBuffFull s <;> simp [Phase.beq_eq]
  | disabled =>
    have hIssued := hServing (Or.inl hPhase)
    rw [push_eq s i (by rw [hPhase]; decide) hIssued]
    simp only [assignId, stateD, hPhase]
    cases i.disabled <;> cases noFreeCmdIds s <;> cases cmdBuffFull s <;> simp [Phase.beq_eq]
  | waitingBuffer =>
    have hIssued := hServing (Or.inr (Or.inl hPhase))
    rw [push_eq s i (by rw [hPhase]; decide) hIssued]
    simp only [assignId, stateD, hPhase]
    cases cmdBuffFull s <;> simp [Phase.beq_eq]

/-- In phase WaitingID the id of a response passes to the waiting command. -/
theorem response_pushed_or_reserved (hState : s.stateQ = .waitingID) (hIssued : cmdIssued i = true) (x : Id p) :
    (responds i x).toNat = (pushes s i x).toNat + (reserves (step s i) x).toNat := by
  have hNext : reserves (step s i) x = (stateD s i == .waitingBuffer && localCmdIdD s i == x) := rfl
  rw [hNext, responds, pushes, push_eq s i (by rw [hState]; decide) hIssued]
  simp only [stateD, localCmdIdD, hState]
  cases i.cmdRespValid <;> cases cmdBuffFull s <;> simp [Phase.beq_eq]

/-- One cycle moves every id between free, reserved and in flight without losing count. -/
theorem ids_step (hServing : Serving s → cmdIssued i = true)
    (hWaiting : s.stateQ = .waiting → cmdIssued i = false)
    (hResp : i.cmdRespValid = true → s.freeCmdIds i.cmdRespId = true) (x : Id p) :
    ((step s i).freeCmdIds x).toNat + (responds i x).toNat + (reserves s x).toNat =
      (s.freeCmdIds x).toNat + (pushes s i x).toNat + (reserves (step s i) x).toNat := by
  change (freeCmdIdsD s i x).toNat + _ + _ = _
  by_cases hState : s.stateQ = .waitingID
  · have hMove := response_pushed_or_reserved s i hState (hServing (Or.inr (Or.inr hState))) x
    have hNone : reserves s x = false := by simp [reserves, hState]
    rw [freeCmdIdsD_waitingID s i hState, hNone, Bool.toNat_false]
    omega
  · have hCount := freeCmdIdsD_count s i hState hResp x
    have hMove := assigned_pushed_or_reserved s i hState hServing hWaiting x
    omega

theorem issued_of_serving_next (hServing : Serving s → cmdIssued i = true) (hNext : Serving (step s i)) :
    cmdIssued i = true := by
  have hState : stateD s i = .disabled ∨ stateD s i = .waitingBuffer ∨ stateD s i = .waitingID := hNext
  cases hPhase : s.stateQ with
  | ready =>
    by_contra hIssued
    rw [stateD_ready_not_issued s i hPhase (by simpa using hIssued)] at hState
    split_ifs at hState <;> simp at hState
  | waiting =>
    simp only [stateD, hPhase] at hState
    split_ifs at hState <;> simp at hState
  | disabled => exact hServing (Or.inl hPhase)
  | waitingBuffer => exact hServing (Or.inr (Or.inl hPhase))
  | waitingID => exact hServing (Or.inr (Or.inr hPhase))

theorem wait_of_waiting_next (hServing : Serving s → cmdIssued i = true)
    (hWaiting : s.stateQ = .waiting → waitIssued i = true) (hNext : (step s i).stateQ = .waiting) :
    waitIssued i = true := by
  have hState : stateD s i = .waiting := hNext
  have hIssued : cmdIssued i = true → waitIssued i = true := fun hIssued => by
    exfalso
    cases hPhase : s.stateQ <;>
      simp only [stateD, hPhase, hIssued, not_wait_of_issued i hIssued, Bool.false_and] at hState <;>
      (try split_ifs at hState) <;> simp_all [not_wait_of_issued i hIssued]
  cases hPhase : s.stateQ with
  | ready =>
    by_contra hWait
    rw [Bool.not_eq_true] at hWait
    by_cases hCmd : cmdIssued i = true
    · rw [hIssued hCmd] at hWait
      cases hWait
    · rw [stateD_ready_not_issued s i hPhase (by simpa using hCmd), hWait] at hState
      simp at hState
  | waiting => exact hWaiting hPhase
  | disabled => exact hIssued (hServing (Or.inl hPhase))
  | waitingBuffer => exact hIssued (hServing (Or.inr (Or.inl hPhase)))
  | waitingID => exact hIssued (hServing (Or.inr (Or.inr hPhase)))

section Runs

variable {p : Params} (s : Nat → State p) (i : Nat → Input p)

def pushed (a c : Nat) : List (PspinCmd p.numCmds) :=
  window (fun t => if cmdBuffPush (s t) (i t) then [cmdD (s t) (i t)] else []) a c

def pushedIds (a c : Nat) : List (Id p) := (pushed s i a c).map fun cmd => cmd.cmdId.localCmdId

def answeredIds (a c : Nat) : List (Id p) :=
  window (fun t => if (i t).cmdRespValid then [(i t).cmdRespId] else []) a c

/-- Ids of the commands that are pushed and not answered before cycle t. -/
def outstanding (t : Nat) : List (Id p) := (pushedIds s i 0 t).diff (answeredIds i 0 t)

/-- A run in which the core holds a request until it is granted, whatever the responses are. -/
structure CoreRuns : Prop where
  start : s 0 = init p
  next : ∀ t, s (t + 1) = step (s t) (i t)
  held : ∀ t, (i t).req = true → gnt (s t) (i t) = false →
    (i (t + 1)).req = true ∧ (i (t + 1)).add = (i t).add ∧ (i (t + 1)).wen = (i t).wen ∧
      (i (t + 1)).wdata = (i t).wdata

/-- A response answers a pushed command. -/
structure Runs : Prop extends CoreRuns s i where
  response : ∀ t, (i t).cmdRespValid = true → (i t).cmdRespId ∈ outstanding s i t

/-- Requests behind the phases in which the frontend is busy. -/
structure Held (s : State p) (i : Input p) : Prop where
  issue : Serving s → cmdIssued i = true
  wait : s.stateQ = .waiting → waitIssued i = true ∧ idOf p i.wdata = s.wtCmdIdxQ

theorem Held.not_issued {s : State p} {i : Input p} (h : Held s i) (hState : s.stateQ = .waiting) :
    cmdIssued i = false := by
  by_contra hIssued
  rw [Bool.not_eq_false] at hIssued
  have hWait := (h.wait hState).1
  rw [(not_wait_of_issued _ hIssued).1] at hWait
  cases hWait

theorem count_pushedIds_succ (x : Id p) (t : Nat) :
    (pushedIds s i 0 (t + 1)).count x = (pushedIds s i 0 t).count x + (pushes (s t) (i t) x).toNat := by
  rw [pushedIds, pushed, window_succ _ (Nat.zero_le t), List.map_append, List.count_append, ← pushed, ← pushedIds,
    pushes]
  cases cmdBuffPush (s t) (i t) with
  | false => rfl
  | true => simp [cmdD, List.count_singleton, Bool.toNat]

theorem count_answeredIds_succ (x : Id p) (t : Nat) :
    (answeredIds i 0 (t + 1)).count x = (answeredIds i 0 t).count x + (responds (i t) x).toNat := by
  rw [answeredIds, window_succ _ (Nat.zero_le t), List.count_append, ← answeredIds, responds]
  cases (i t).cmdRespValid with
  | false => rfl
  | true => simp [List.count_singleton, Bool.toNat]

variable {s i}

theorem mem_outstanding {x : Id p} {t : Nat} :
    x ∈ outstanding s i t ↔ (answeredIds i 0 t).count x < (pushedIds s i 0 t).count x := by
  rw [← List.count_pos_iff, outstanding, List.count_diff]
  omega

theorem CoreRuns.request_held (h : CoreRuns s i) {t : Nat} (hReq : (i t).req = true)
    (hBusy : stateD (s t) (i t) ≠ .ready) :
    (i (t + 1)).req = true ∧ (i (t + 1)).add = (i t).add ∧ (i (t + 1)).wen = (i t).wen ∧
      (i (t + 1)).wdata = (i t).wdata := by
  refine h.held t hReq ?_
  rw [gnt, beq_false_of_ne hBusy, Bool.and_false]

theorem CoreRuns.run_held (h : CoreRuns s i) (t : Nat) : Held (s t) (i t) := by
  induction t with
  | zero =>
    rw [h.start]
    refine ⟨fun hServing => ?_, fun hWaiting => by cases hWaiting⟩
    rcases hServing with hState | hState | hState <;> cases hState
  | succ t ih =>
    rw [h.next]
    constructor
    · intro hServing
      have hIssued := issued_of_serving_next _ _ ih.issue hServing
      have hReq : (i t).req = true := by
        simp only [cmdIssued, Bool.and_eq_true] at hIssued
        exact hIssued.1.1
      have hBusy : stateD (s t) (i t) ≠ .ready := by
        intro hReady
        rcases hServing with hState | hState | hState <;>
          exact absurd (hReady.symm.trans hState) (by decide)
      obtain ⟨hNext, hAdd, hWen, _⟩ := h.request_held hReq hBusy
      rw [cmdIssued, addIdx, hReq] at hIssued
      rw [cmdIssued, addIdx, hNext, hAdd, hWen]
      exact hIssued
    · intro hWaiting
      have hWait := wait_of_waiting_next _ _ ih.issue (fun hState => (ih.wait hState).1) hWaiting
      have hReq : (i t).req = true := by
        simp only [waitIssued, Bool.and_eq_true] at hWait
        exact hWait.1.1
      have hBusy : stateD (s t) (i t) ≠ .ready := fun hReady => absurd (hReady.symm.trans hWaiting) (by decide)
      obtain ⟨hNext, hAdd, hWen, hWdata⟩ := h.request_held hReq hBusy
      constructor
      · rw [waitIssued, addIdx, hReq] at hWait
        rw [waitIssued, addIdx, hNext, hAdd, hWen]
        exact hWait
      · change _ = wtCmdIdxD (s t) (i t)
        rw [wtCmdIdxD, hWait, Bool.true_or, if_pos rfl, hWdata]

theorem used_of_outstanding {t : Nat} {x : Id p} (hMem : x ∈ outstanding s i t)
    (hCount : (answeredIds i 0 t).count x + ((s t).freeCmdIds x).toNat =
      (pushedIds s i 0 t).count x + (reserves (s t) x).toNat) : (s t).freeCmdIds x = true := by
  have hLt := mem_outstanding.mp hMem
  by_contra hFree
  rw [Bool.not_eq_true] at hFree
  rw [hFree, Bool.toNat_false] at hCount
  omega

/-- Per id: answers and the bit in use on one side, pushes and the reservation on the other. -/
theorem run_ids (h : Runs s i) (t : Nat) (x : Id p) :
    (answeredIds i 0 t).count x + ((s t).freeCmdIds x).toNat =
      (pushedIds s i 0 t).count x + (reserves (s t) x).toNat := by
  induction t generalizing x with
  | zero =>
    rw [h.start]
    rfl
  | succ t ih =>
    have hHeld := h.run_held t
    have hResp : (i t).cmdRespValid = true → (s t).freeCmdIds (i t).cmdRespId = true :=
      fun hValid => used_of_outstanding (h.response t hValid) (ih _)
    have hStep := ids_step (s t) (i t) hHeld.issue hHeld.not_issued hResp x
    have hCount := ih x
    rw [count_pushedIds_succ, count_answeredIds_succ, h.next]
    omega

theorem response_used (h : Runs s i) (t : Nat) (hValid : (i t).cmdRespValid = true) :
    (s t).freeCmdIds (i t).cmdRespId = true :=
  used_of_outstanding (h.response t hValid) (run_ids h t _)

theorem answered_le (h : Runs s i) (t : Nat) (x : Id p) :
    (answeredIds i 0 t).count x ≤ (pushedIds s i 0 t).count x := by
  induction t with
  | zero => exact Nat.le_refl 0
  | succ t ih =>
    rw [count_pushedIds_succ, count_answeredIds_succ]
    cases hResp : responds (i t) x with
    | false => exact ih.trans (Nat.le_add_right _ _)
    | true =>
      obtain ⟨hValid, hId⟩ := Bool.and_eq_true_iff.mp hResp
      have hLt := mem_outstanding.mp (h.response t hValid)
      rw [beq_iff_eq.mp hId] at hLt
      rw [Bool.toNat_true]
      omega

/-- An unanswered command has its id once, and no reserved id is among them. -/
theorem count_outstanding (h : Runs s i) (t : Nat) (x : Id p) :
    (outstanding s i t).count x + (reserves (s t) x).toNat = ((s t).freeCmdIds x).toNat := by
  have hIds := run_ids h t x
  have hLe := answered_le h t x
  rw [outstanding, List.count_diff]
  omega

theorem run_cmdBuff (h : Runs s i) (t : Nat) : (s t).cmdBuff.length ≤ p.numBufferedCmd := by
  induction t with
  | zero =>
    rw [h.start]
    exact Nat.zero_le _
  | succ t ih =>
    rw [h.next]
    exact length_fifoV3Step_le ih

/-- The commands with their ids in cycle t. -/
structure IdDiscipline (s : Nat → State p) (i : Nat → Input p) (t : Nat) : Prop where
  distinct : (outstanding s i t).Nodup
  used : ∀ x, (s t).freeCmdIds x = true ↔ x ∈ outstanding s i t ∨ reserves (s t) x = true
  reserved : ∀ x ∈ outstanding s i t, reserves (s t) x = false
  /-- A grant of an issue request comes with a push, and a push with such a grant. -/
  pushes : cmdBuffPush (s t) (i t) = (cmdIssued (i t) && gnt (s t) (i t))
  room : cmdBuffPush (s t) (i t) = true → (s t).cmdBuff.length < p.numBufferedCmd

theorem idDiscipline (h : Runs s i) (t : Nat) : IdDiscipline s i t where
  distinct := by
    rw [List.nodup_iff_count_le_one]
    intro x
    have hCount := count_outstanding h t x
    have hBit := Bool.toNat_le ((s t).freeCmdIds x)
    omega
  used x := by
    have hPos : ∀ b : Bool, b = true ↔ 0 < b.toNat := by decide
    rw [← List.count_pos_iff, hPos, hPos, ← count_outstanding h t x]
    omega
  reserved x hx := by
    have hCount := count_outstanding h t x
    have hBit := Bool.toNat_le ((s t).freeCmdIds x)
    have hPos := List.count_pos_iff.mpr hx
    cases hReserves : reserves (s t) x with
    | false => rfl
    | true =>
      rw [hReserves, Bool.toNat_true] at hCount
      omega
  pushes := by
    cases hIssued : cmdIssued (i t) with
    | false => simp [cmdBuffPush, hIssued]
    | true =>
      have hReq : (i t).req = true := by
        simp only [cmdIssued, Bool.and_eq_true] at hIssued
        exact hIssued.1.1
      rw [push_eq _ _ (fun hState => ?_) hIssued, gnt, hReq, Bool.true_and, Bool.true_and]
      have hNot := (h.run_held t).not_issued hState
      rw [hIssued] at hNot
      cases hNot
  room hPush := by
    refine lt_of_le_of_ne (run_cmdBuff h t) fun hEq => ?_
    simp [cmdBuffPush, cmdBuffFull, hEq] at hPush

def twoIds : Params := ⟨2, Nat.succ_pos 1, Nat.le_of_ble_eq_true rfl, 1, 0, 0⟩

/-- Three issue reads. The second one waits for the buffer, and the third for the id of the first. -/
def contended (t : Nat) : Input twoIds where
  req := decide (t < 6)
  add := 0x80
  wen := true
  wdata := 0
  cmdRespValid := t == 5
  cmdRespId := zeroId twoIds
  disabled := false
  cmdReady := t == 2 || t == 4

theorem contended_runs : Runs (stateAt step (init twoIds) contended) contended where
  start := rfl
  next _ := rfl
  held t hReq hBusy := by
    have hEarly : t < 6 := of_decide_eq_true hReq
    revert hBusy hReq
    revert t
    decide +kernel
  response t hValid := by
    obtain rfl : t = 5 := beq_iff_eq.mp hValid
    decide +kernel

theorem idDiscipline_contended :
    reserves (stateAt step (init twoIds) contended 2) ⟨1, Nat.lt_succ_self 1⟩ = true ∧
      IdDiscipline (stateAt step (init twoIds) contended) contended 2 :=
  ⟨by decide +kernel, idDiscipline contended_runs 2⟩

end Runs

end CmdFrontend

end FPsPIN.HpuDriver
