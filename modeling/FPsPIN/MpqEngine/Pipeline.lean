import FPsPIN.Lib.Run
import FPsPIN.MpqEngine.Model

/-!
# Events of a cycle and the task output pipeline

A cycle reaches an MPQ through three events: a HER, a grant, a feedback. The
three state machine instances agree wherever they meet, so an MPQ sees one
transition. A granted task is offered one cycle later and stays until it is
taken; nothing is assumed of the environment here.
-/

namespace FPsPIN.MpqEngine

open Config Run

variable {p : Params}

section Cycle

variable (s : State p) (i : Input p)

theorem fsmWrite_apply (mpq : Index p → Mpq) (j k : Index p) :
    fsmWrite s i mpq k j =
      if k = j ∧ fsmUpdate (eventsOn s i j) = true then mpqFsm (eventsOn s i j) (s.mpqQ j) else mpq j := by
  rw [fsmWrite]
  by_cases hk : k = j
  · subst k
    by_cases hUpdate : fsmUpdate (eventsOn s i j) = true <;> simp [hUpdate]
  · by_cases hUpdate : fsmUpdate (eventsOn s i k) = true <;>
      simp [hUpdate, hk, Function.update_of_ne (Ne.symm hk)]

/-- An instance that writes an MPQ sees exactly the events on it, so the order of writes is immaterial. -/
theorem mpqD_apply (j : Index p) : mpqD s i j = (s.mpqQ j).next (eventsOn s i j) := by
  rw [mpqD, fsmWrite_apply, fsmWrite_apply, fsmWrite_apply, Mpq.next]
  by_cases hUpdate : fsmUpdate (eventsOn s i j) = true
  · have hSome : newherMpqIdx i = j ∨ tasksentMpqIdx i = j ∨ feedbackMpqIdx i = j := by
      simp only [fsmUpdate, eventsOn, Bool.or_eq_true, Bool.and_eq_true, beq_iff_eq] at hUpdate
      tauto
    simp only [hUpdate, and_true, if_true]
    split_ifs <;> tauto
  · simp [hUpdate]

theorem fifoPop_eq :
    fifoPop s i =
      (grant s i && (s.mpqQ (tasksentMpqIdx i)).pops (eventsOn s i (tasksentMpqIdx i))) := by
  cases hGrant : grant s i with
  | false => simp [fifoPop, hGrant]
  | true =>
    have hUpdate : fsmUpdate (eventsOn s i (tasksentMpqIdx i)) = true := by
      simp [fsmUpdate, eventsOn, hGrant]
    simp only [fifoPop, hGrant, mpqD_apply, Mpq.next, hUpdate, if_true, Bool.true_and, Mpq.pops]

theorem metaMem_step (j : Index p) :
    (step s i).metaMem j =
      if mpqmetaWrite s i = true ∧ newherMpqIdx i = j then i.her.mpqMeta else s.metaMem j := by
  by_cases hWrite : mpqmetaWrite s i = true <;> by_cases hj : newherMpqIdx i = j
  · subst j
    simp [step, hWrite]
  · simp [step, hWrite, hj, Function.update_of_ne (Ne.symm hj)]
  all_goals simp [step, hWrite]

/-- The task a grant of this cycle stands for. -/
def grantedTask : HandlerTask :=
  newTask (s.mpqQ (tasksentMpqIdx i)).state (s.metaMem (tasksentMpqIdx i))
    (s.fifo.fifoData (s.fifo.fifoHead (tasksentMpqIdx i))) (fifoPop s i) (tasksentMpqIdx i)

def grants : List HandlerTask := if grant s i then [grantedTask s i] else []

def emits : List HandlerTask := if taskValid s && i.taskReady then [taskO s] else []

def pending : List HandlerTask := if taskValid s then [taskO s] else []

theorem pending_step :
    pending (step s i) =
      if grant s i then [grantedTask s i]
      else if taskValid s && !i.taskReady then [taskO s] else [] := by
  have hFresh : grant s i = true → freshTask (step s i) = grantedTask s i := by
    intro hGrant
    simp only [freshTask, step, hGrant, if_true]
    rfl
  have hTask : taskO (step s i) = if stateD s i == .ready then freshTask (step s i) else taskO s := rfl
  have hNext : taskValid (step s i) = (stateD s i == .ready || stateD s i == .stalled) := rfl
  rw [pending, hNext, hTask]
  cases hState : s.stateQ <;> cases hValid : arbValid s <;> cases hReady : i.taskReady <;>
    simp_all [taskValid, stateD, grant, arbReady]

theorem pipeline_step : pending s ++ grants s i = emits s i ++ pending (step s i) := by
  rw [pending_step, grants, emits, pending]
  cases hState : s.stateQ <;> cases hValid : arbValid s <;> cases hReady : i.taskReady <;>
    simp [taskValid, grant, arbReady, hState, hValid, hReady]

/-- An offered task that is not taken is offered again unchanged. -/
theorem taskO_stable (hValid : taskValid s = true) (hReady : i.taskReady = false) :
    taskValid (step s i) = true ∧ taskO (step s i) = taskO s := by
  have hPending := pending_step s i
  have hGrant : grant s i = false := by
    cases hState : s.stateQ <;> simp_all [grant, arbReady, taskValid]
  rw [hGrant, hValid, hReady, pending] at hPending
  by_cases hNext : taskValid (step s i) = true <;> simp_all

/-- Tasks and feedbacks belong to the MPQ that their message id selects. -/
def onMpq (j : Index p) (tasks : List HandlerTask) : List HandlerTask :=
  tasks.filter (fun task => mpqIdx p task.msgid == j)

theorem onMpq_append (j : Index p) (a c : List HandlerTask) : onMpq j (a ++ c) = onMpq j a ++ onMpq j c :=
  List.filter_append ..

def herOn (j : Index p) : List HerDescr := if herNew s i && newherMpqIdx i == j then [i.her] else []

def feedbackOn (j : Index p) : List FeedbackDescr :=
  if feedbackNew i && feedbackMpqIdx i == j then [i.feedback] else []

end Cycle

theorem mpqIdx_newTask (outState : MpqState) (mpqMeta : MpqMeta) (head : MpqPkt) (triggers : Bool)
    (j : Index p) : mpqIdx p (newTask outState mpqMeta head triggers j).msgid = j := by
  have hBits : p.numMpq ≤ 2 ^ 10 := Nat.pow_le_pow_right (by omega) p.bits_le
  apply Fin.ext
  simp only [mpqIdx, newTask, BitVec.toNat_ofNat]
  rw [Nat.mod_eq_of_lt (Nat.lt_of_lt_of_le j.isLt hBits), Nat.mod_eq_of_lt j.isLt]

theorem onMpq_grants (s : State p) (i : Input p) (j : Index p) :
    onMpq j (grants s i) = if (eventsOn s i j).taskSent then [grantedTask s i] else [] := by
  by_cases hGrant : grant s i = true
  · by_cases hj : tasksentMpqIdx i = j <;>
      simp [onMpq, grants, eventsOn, hGrant, grantedTask, mpqIdx_newTask, hj]
  · simp [onMpq, grants, eventsOn, hGrant]

section Runs

variable (b : Boot) (inputs : Nat → Input p)

def runAt (t : Nat) : State p := stateAt step (init p b) inputs t

theorem runAt_succ (t : Nat) : runAt b inputs (t + 1) = step (runAt b inputs t) (inputs t) := rfl

def hersOn (j : Index p) (a c : Nat) : List HerDescr :=
  window (fun t => herOn (runAt b inputs t) (inputs t) j) a c

def feedbacksOn (j : Index p) (a c : Nat) : List FeedbackDescr :=
  window (fun t => feedbackOn (inputs t) j) a c

def tasksOn (j : Index p) (a c : Nat) : List HandlerTask :=
  window (fun t => onMpq j (emits (runAt b inputs t) (inputs t))) a c

def grantsOn (j : Index p) (a c : Nat) : List HandlerTask :=
  window (fun t => onMpq j (grants (runAt b inputs t) (inputs t))) a c

theorem pipeline_window (j : Index p) {a c : Nat} (h : a ≤ c) :
    onMpq j (pending (runAt b inputs a)) ++ grantsOn b inputs j a c =
      tasksOn b inputs j a c ++ onMpq j (pending (runAt b inputs c)) := by
  obtain ⟨d, rfl⟩ := Nat.exists_eq_add_of_le h
  induction d with
  | zero => simp [grantsOn, tasksOn]
  | succ d ih =>
    have hStep := congrArg (onMpq j) (pipeline_step (runAt b inputs (a + d)) (inputs (a + d)))
    rw [onMpq_append, onMpq_append] at hStep
    have ih := ih (Nat.le_add_right a d)
    rw [grantsOn, tasksOn] at ih ⊢
    rw [← Nat.add_assoc, window_succ _ (Nat.le_add_right a d), window_succ _ (Nat.le_add_right a d),
      ← List.append_assoc, ih, List.append_assoc, hStep, ← List.append_assoc]
    rfl

theorem length_pending_le (j : Index p) (t : Nat) : (onMpq j (pending (runAt b inputs t))).length ≤ 1 := by
  refine (List.length_filter_le _ _).trans ?_
  rw [pending]
  split_ifs <;> simp

theorem pipeline_length (j : Index p) (t : Nat) :
    (grantsOn b inputs j 0 t).length =
      (tasksOn b inputs j 0 t).length + (onMpq j (pending (runAt b inputs t))).length := by
  have hPipe := congrArg List.length (pipeline_window b inputs j (Nat.zero_le t))
  rw [List.length_append, List.length_append] at hPipe
  simpa [runAt, pending, taskValid, init, onMpq] using hPipe

end Runs

end FPsPIN.MpqEngine
