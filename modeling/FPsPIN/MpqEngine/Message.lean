import FPsPIN.MpqEngine.Stranded

/-!
# The progress of one message through its MPQ

Seen from one MPQ, a message is the list of its accepted HERs. Its progress
records which tasks have been granted for them and how many feedbacks came
back. Every state of the machine fixes one phase of that progress; the last
phase ends with the whole task list of the message.
-/

namespace FPsPIN.MpqEngine

open Config

section Tasks

variable {p : Params} (j : Index p) (first : HerDescr)

def headerTasks : List HandlerTask :=
  if hasHh first then [newTask .header first.mpqMeta (newPkt first) false j] else []

def payloadTask (triggers : Bool) (her : HerDescr) : HandlerTask :=
  newTask .payload first.mpqMeta (newPkt her) triggers j

def completionTask (her : HerDescr) : HandlerTask := newTask .completion first.mpqMeta (newPkt her) true j

def startedTasks (done : List HerDescr) : List HandlerTask :=
  headerTasks j first ++ done.map (payloadTask j first true)

/-- Tasks granted up to the last packet, whose feedback waits for the completion handler if there is one. -/
def drainedTasks (front : List HerDescr) (last : HerDescr) : List HandlerTask :=
  startedTasks j first front ++ [payloadTask j first (!hasTh first) last]

def messageTasks (front : List HerDescr) (last : HerDescr) : List HandlerTask :=
  drainedTasks j first front last ++ if hasTh first then [completionTask j first last] else []

theorem drainedTasks_length (front : List HerDescr) (last : HerDescr) :
    (drainedTasks j first front last).length = (headerTasks j first).length + front.length + 1 := by
  simp [drainedTasks, startedTasks, Nat.add_assoc]

end Tasks

/-- The HERs of a message end with its only EOM. -/
structure Closed (hers front : List HerDescr) (last : HerDescr) : Prop where
  split : hers = front ++ [last]
  before : ∀ her ∈ front, her.eom = false
  eom : last.eom = true

/-- What eom_seen says about the HERs accepted so far. -/
def EomLast (seen : Bool) (hers : List HerDescr) : Prop :=
  if seen then ∃ front last, Closed hers front last else ∀ her ∈ hers, her.eom = false

theorem EomLast.append {seen herNew : Bool} {hers : List HerDescr} (h : EomLast seen hers)
    (her : HerDescr) (hQuiet : herNew = true → seen = false) :
    EomLast (seen || (herNew && her.eom)) (hers ++ if herNew then [her] else []) := by
  cases hNew : herNew with
  | false => simpa using h
  | true =>
    have hSeen := hQuiet hNew
    subst hSeen
    have hNone : ∀ x ∈ hers, x.eom = false := h
    cases hEom : her.eom with
    | true => exact ⟨hers, her, rfl, hNone, hEom⟩
    | false =>
      intro x hx
      rcases List.mem_append.mp hx with hx | hx
      · exact hNone x hx
      · rw [List.mem_singleton.mp hx, hEom]

/-- The flag eom_seen is clear in Free and set once the last payload task is granted. -/
structure Mpq.EomOk (m : Mpq) : Prop where
  free : m.state = .free → m.eomSeen = false
  closing : m.Closing → m.eomSeen = true

theorem Mpq.EomOk.next {m : Mpq} (h : m.EomOk) (e : FsmEvents) : (m.next e).EomOk where
  free hState := by
    rw [next_state] at hState
    rw [next_eomSeen e m h.free, hState]
    rfl
  closing hState := by
    have hClosing := h.closing
    rw [Mpq.Closing, next_state] at hState
    rw [Mpq.Closing] at hClosing
    rw [next_eomSeen e m h.free]
    cases hm : m.state <;> simp only [fsmState, hm] at * <;> grind

section Pops

variable {m : Mpq} {e : FsmEvents}

theorem pops_header (hState : m.state = .header) : m.pops e = false := by simp [Mpq.pops, hState]

theorem pops_completion (hState : m.state = .completion) : m.pops e = true := by simp [Mpq.pops, hState]

theorem pops_payload (hState : m.state = .payload) (hNext : fsmState e m = .payload) :
    m.pops e = true := by
  simp [Mpq.pops, mpqFsm, hState, hNext]

theorem pops_drain (hState : m.state = .payload) (hNext : fsmState e m = .payloadDraining) :
    m.pops e = !m.hasCompletion := by
  simp only [Mpq.pops, mpqFsm, hState, hNext]
  cases m.hasCompletion <;> rfl

end Pops

/-- What each state says about the HERs, the queue, the granted tasks and the feedbacks of a message;
in state Free it is over. -/
def Phase {p : Params} (j : Index p) (first : HerDescr) (state : MpqState) (queue : List MpqPkt)
    (hers : List HerDescr) (granted : List HandlerTask) (answered : Nat) : Prop :=
  match state with
  | .free => ∃ front last, Closed hers front last ∧ granted = messageTasks j first front last
  | .header => hasHh first = true ∧ queue = hers.map newPkt ∧ granted = []
  | .headerRunning => hasHh first = true ∧ queue = hers.map newPkt ∧ granted = headerTasks j first
  | .payload => (hasHh first = true → 1 ≤ answered) ∧ ∃ done waiting, hers = done ++ waiting ∧
      queue = waiting.map newPkt ∧ granted = startedTasks j first done
  | .payloadDraining => (hasHh first = true → 1 ≤ answered) ∧ ∃ front last, Closed hers front last ∧
      queue = (if hasTh first then [newPkt last] else []) ∧ granted = drainedTasks j first front last
  | .completion => hasTh first = true ∧ ∃ front last, Closed hers front last ∧
      queue = [newPkt last] ∧ granted = drainedTasks j first front last
  | .completionRunning => hasTh first = true ∧ ∃ front last, Closed hers front last ∧
      queue = [] ∧ granted = drainedTasks j first front last ++ [completionTask j first last]

structure Progress {p : Params} (j : Index p) (first : HerDescr) (m : Mpq) (queue : List MpqPkt)
    (hers : List HerDescr) (granted : List HandlerTask) (answered : Nat) : Prop where
  starts : hers.head? = some first
  completion : m.hasCompletion = hasTh first
  eom : m.state ≠ .free → EomLast m.eomSeen hers
  phase : Phase j first m.state queue hers granted answered

/-- One cycle of a lane: the HER, the granted task and the queue after it. -/
structure LaneCycle {p : Params} (j : Index p) (first : HerDescr) (m : Mpq) (queue : List MpqPkt)
    (e : FsmEvents) (her : HerDescr) (sent : List HandlerTask) : Prop where
  isEom : e.herNewIsEom = her.eom
  quiet : e.herNew = true → m.eomSeen = false
  idle : e.taskSent = false → sent = []
  grant : e.taskSent = true → ∀ pkt rest, queue = pkt :: rest →
    sent = [newTask m.state first.mpqMeta pkt (m.pops e) j]

def newHers (e : FsmEvents) (her : HerDescr) : List HerDescr := if e.herNew then [her] else []

def nextQueue (m : Mpq) (e : FsmEvents) (her : HerDescr) (queue : List MpqPkt) : List MpqPkt :=
  (if e.taskSent && m.pops e then queue.tail else queue) ++ (newHers e her).map newPkt

section Step

variable {p : Params} {j : Index p} {first : HerDescr} {m : Mpq} {queue : List MpqPkt}
  {hers : List HerDescr} {granted : List HandlerTask} {answered g : Nat} {e : FsmEvents}
  {her : HerDescr} {sent : List HandlerTask}

theorem LaneCycle.closing_quiet (hCycle : LaneCycle j first m queue e her sent) (hEomOk : m.EomOk)
    (hClosing : m.Closing) : newHers e her = [] := by
  have hSeen := hEomOk.closing hClosing
  cases hNew : e.herNew with
  | false => simp [newHers, hNew]
  | true =>
    rw [hCycle.quiet hNew] at hSeen
    cases hSeen

theorem Progress.phase_header (h : Progress j first m queue hers granted answered)
    (hCycle : LaneCycle j first m queue e her sent) (hState : m.state = .header) :
    Phase j first (fsmState e m) (nextQueue m e her queue) (hers ++ newHers e her) (granted ++ sent)
      (answered + e.feedback.toNat) := by
  have hPhase := h.phase
  rw [hState] at hPhase
  obtain ⟨hHh, hQueue, hGranted⟩ := hPhase
  have hNext : nextQueue m e her queue = (hers ++ newHers e her).map newPkt := by
    simp [nextQueue, pops_header hState, hQueue]
  cases hSent : e.taskSent with
  | false =>
    rw [fsmState, hState, hSent, hCycle.idle hSent, hGranted]
    exact ⟨hHh, hNext, rfl⟩
  | true =>
    -- The header task carries the first packet, which stays in the queue.
    obtain ⟨rest, hHers⟩ : ∃ rest, hers = first :: rest := by
      cases hers with
      | nil => cases h.starts
      | cons x rest => exact ⟨rest, by rw [Option.some.inj h.starts]⟩
    have hTask := hCycle.grant hSent (newPkt first) (rest.map newPkt) (by rw [hQueue, hHers]; rfl)
    rw [fsmState, hState, hSent, hTask, hGranted, pops_header hState, hState]
    refine ⟨hHh, hNext, ?_⟩
    rw [headerTasks, if_pos hHh]
    rfl

theorem Progress.phase_headerRunning (h : Progress j first m queue hers granted answered)
    (hOk : LaneOk m queue.length g e) (hCycle : LaneCycle j first m queue e her sent)
    (hState : m.state = .headerRunning) :
    Phase j first (fsmState e m) (nextQueue m e her queue) (hers ++ newHers e her) (granted ++ sent)
      (answered + e.feedback.toNat) := by
  have hPhase := h.phase
  rw [hState] at hPhase
  obtain ⟨hHh, hQueue, hGranted⟩ := hPhase
  have hSent : e.taskSent = false := by
    by_contra hSent
    have hValid := Mpq.valid_iff.mp (hOk.sent (by simpa using hSent))
    simp [hState] at hValid
  have hNext : nextQueue m e her queue = (hers ++ newHers e her).map newPkt := by
    simp [nextQueue, hSent, hQueue]
  rw [hCycle.idle hSent, List.append_nil]
  cases hFeedback : e.feedback with
  | false =>
    rw [fsmState, hState, hFeedback]
    exact ⟨hHh, hNext, hGranted⟩
  | true =>
    rw [fsmState, hState, hFeedback]
    refine ⟨fun _ => Nat.le_add_left _ _, [], hers ++ newHers e her, rfl, hNext, ?_⟩
    rw [hGranted, startedTasks, List.map_nil, List.append_nil]

theorem Progress.phase_payload (h : Progress j first m queue hers granted answered)
    (hBook : MpqBook m queue.length g) (hOk : LaneOk m queue.length g e)
    (hCycle : LaneCycle j first m queue e her sent) (hState : m.state = .payload) :
    Phase j first (fsmState e m) (nextQueue m e her queue) (hers ++ newHers e her) (granted ++ sent)
      (answered + e.feedback.toNat) := by
  have hPhase := h.phase
  rw [hState] at hPhase
  obtain ⟨hHh, done, waiting, hHers, hQueue, hGranted⟩ := hPhase
  have hAnswered : hasHh first = true → 1 ≤ answered + e.feedback.toNat := fun hh => by
    have hOne := hHh hh
    omega
  cases hSent : e.taskSent with
  | false =>
    have hStay : fsmState e m = .payload := by simp [fsmState, hState, hSent]
    rw [hStay, hCycle.idle hSent, List.append_nil]
    refine ⟨hAnswered, done, waiting ++ newHers e her, ?_, ?_, hGranted⟩
    · rw [hHers, List.append_assoc]
    · simp [nextQueue, hSent, hQueue]
  | true =>
    have hLength : queue.length = m.length := by
      have hHeld := hBook.held
      rw [Mpq.held, hState, if_neg (by simp)] at hHeld
      exact hHeld
    have hPositive : 0 < m.length := by
      have hValid := Mpq.valid_iff.mp (hOk.sent hSent)
      simpa [hState] using hValid
    obtain ⟨next, rest, rfl⟩ : ∃ next rest, waiting = next :: rest := by
      cases waiting with
      | nil =>
        rw [hQueue] at hLength
        simp at hLength
        omega
      | cons next rest => exact ⟨next, rest, rfl⟩
    have hTask := hCycle.grant hSent (newPkt next) (rest.map newPkt) hQueue
    rw [hTask, hState]
    by_cases hLast : m.eomSeen = true ∧ m.length = 1
    · -- The last packet of the message is granted.
      have hDrain : fsmState e m = .payloadDraining := by simp [fsmState, hState, hSent, hLast]
      have hNew : newHers e her = [] := by
        cases hNew : e.herNew with
        | false => simp [newHers, hNew]
        | true =>
          have hSeen := hCycle.quiet hNew
          rw [hLast.1] at hSeen
          cases hSeen
      have hRest : rest = [] := by
        rw [hQueue] at hLength
        simp only [List.map_cons, List.length_cons, List.length_map, hLast.2] at hLength
        exact List.length_eq_zero_iff.mp (by omega)
      subst hRest
      have hEom := h.eom (by rw [hState]; decide)
      rw [hLast.1] at hEom
      obtain ⟨front, last, hClosed⟩ := hEom
      obtain ⟨hFront, hEq⟩ := List.append_inj' (hHers.symm.trans hClosed.split) rfl
      obtain rfl := List.singleton_inj.mp hEq
      subst hFront
      rw [hDrain, pops_drain hState hDrain, hNew, List.append_nil]
      refine ⟨hAnswered, done, next, hClosed, ?_, ?_⟩
      · rw [nextQueue, hSent, pops_drain hState hDrain, hNew, hQueue, h.completion]
        cases hasTh first <;> rfl
      · rw [hGranted, h.completion]
        rfl
    · have hStay : fsmState e m = .payload := by
        simp only [fsmState, hState, hSent, Bool.true_and, Bool.and_eq_true, beq_iff_eq]
        rw [if_neg hLast]
      rw [hStay, pops_payload hState hStay]
      refine ⟨hAnswered, done ++ [next], rest ++ newHers e her, ?_, ?_, ?_⟩
      · rw [hHers]
        simp
      · simp [nextQueue, hSent, pops_payload hState hStay, hQueue]
      · rw [hGranted, startedTasks, startedTasks, List.map_append, List.append_assoc]
        rfl

theorem LaneOk.not_sent (hOk : LaneOk m queue.length g e) (hValid : m.valid = false) :
    e.taskSent = false := by
  by_contra hSent
  rw [hOk.sent (by simpa using hSent)] at hValid
  cases hValid

theorem Progress.phase_payloadDraining (h : Progress j first m queue hers granted answered)
    (hOk : LaneOk m queue.length g e) (hCycle : LaneCycle j first m queue e her sent)
    (hEomOk : m.EomOk) (hState : m.state = .payloadDraining) :
    Phase j first (fsmState e m) (nextQueue m e her queue) (hers ++ newHers e her) (granted ++ sent)
      (answered + e.feedback.toNat) := by
  have hPhase := h.phase
  rw [hState] at hPhase
  obtain ⟨hHh, front, last, hClosed, hQueue, hGranted⟩ := hPhase
  have hSent := hOk.not_sent (by simp [Mpq.valid, hState])
  have hNew := hCycle.closing_quiet hEomOk (Or.inl hState)
  have hNext : nextQueue m e her queue = queue := by simp [nextQueue, hSent, hNew]
  rw [hNext, hNew, hCycle.idle hSent, List.append_nil, List.append_nil, fsmState, hState]
  by_cases hDone : (e.feedback && m.inFlight == 1) = true
  · simp only [hDone, if_true, h.completion]
    cases hTh : hasTh first with
    | true =>
      rw [hTh, if_pos rfl] at hQueue
      exact ⟨hTh, front, last, hClosed, hQueue, hGranted⟩
    | false => exact ⟨front, last, hClosed, by rw [hGranted, messageTasks, hTh]; simp⟩
  · simp only [hDone]
    refine ⟨fun hh => ?_, front, last, hClosed, hQueue, hGranted⟩
    have hOne := hHh hh
    omega

theorem Progress.phase_completion (h : Progress j first m queue hers granted answered)
    (hCycle : LaneCycle j first m queue e her sent)
    (hEomOk : m.EomOk) (hState : m.state = .completion) :
    Phase j first (fsmState e m) (nextQueue m e her queue) (hers ++ newHers e her) (granted ++ sent)
      (answered + e.feedback.toNat) := by
  have hPhase := h.phase
  rw [hState] at hPhase
  obtain ⟨hTh, front, last, hClosed, hQueue, hGranted⟩ := hPhase
  have hNew := hCycle.closing_quiet hEomOk (Or.inr (Or.inl hState))
  rw [hNew, List.append_nil]
  cases hSent : e.taskSent with
  | false =>
    rw [fsmState, hState, hSent, hCycle.idle hSent, List.append_nil]
    exact ⟨hTh, front, last, hClosed, by simp [nextQueue, hSent, hNew, hQueue], hGranted⟩
  | true =>
    have hTask := hCycle.grant hSent (newPkt last) [] hQueue
    rw [fsmState, hState, hSent, hTask, pops_completion hState, hState, hGranted]
    refine ⟨hTh, front, last, hClosed, ?_, rfl⟩
    simp [nextQueue, hSent, hNew, hQueue, pops_completion hState]

theorem Progress.phase_completionRunning (h : Progress j first m queue hers granted answered)
    (hOk : LaneOk m queue.length g e) (hCycle : LaneCycle j first m queue e her sent)
    (hEomOk : m.EomOk) (hState : m.state = .completionRunning) :
    Phase j first (fsmState e m) (nextQueue m e her queue) (hers ++ newHers e her) (granted ++ sent)
      (answered + e.feedback.toNat) := by
  have hPhase := h.phase
  rw [hState] at hPhase
  obtain ⟨hTh, front, last, hClosed, hQueue, hGranted⟩ := hPhase
  have hSent := hOk.not_sent (by simp [Mpq.valid, hState])
  have hNew := hCycle.closing_quiet hEomOk (Or.inr (Or.inr hState))
  have hNext : nextQueue m e her queue = queue := by simp [nextQueue, hSent, hNew]
  rw [hNext, hNew, hCycle.idle hSent, List.append_nil, List.append_nil, fsmState, hState]
  cases e.feedback with
  | false => exact ⟨hTh, front, last, hClosed, hQueue, hGranted⟩
  | true => exact ⟨front, last, hClosed, by rw [hGranted, messageTasks, if_pos hTh]⟩

theorem Progress.next (h : Progress j first m queue hers granted answered) (hBusy : m.state ≠ .free)
    (hBook : MpqBook m queue.length g) (hOk : LaneOk m queue.length g e)
    (hCycle : LaneCycle j first m queue e her sent) (hEomOk : m.EomOk) :
    Progress j first (m.next e) (nextQueue m e her queue) (hers ++ newHers e her) (granted ++ sent)
      (answered + e.feedback.toNat) where
  starts := by
    rw [List.head?_append, h.starts]
    rfl
  completion := by
    rw [next_hasCompletion, beq_false_of_ne hBusy]
    exact h.completion
  eom hNext := by
    rw [next_state] at hNext
    rw [next_eomSeen e m hEomOk.free, beq_false_of_ne hNext, hCycle.isEom]
    exact (h.eom hBusy).append her hCycle.quiet
  phase := by
    rw [next_state]
    cases hState : m.state with
    | free => exact absurd hState hBusy
    | header => exact h.phase_header hCycle hState
    | headerRunning => exact h.phase_headerRunning hOk hCycle hState
    | payload => exact h.phase_payload hBook hOk hCycle hState
    | payloadDraining => exact h.phase_payloadDraining hOk hCycle hEomOk hState
    | completion => exact h.phase_completion hCycle hEomOk hState
    | completionRunning => exact h.phase_completionRunning hOk hCycle hEomOk hState

theorem Progress.start (hFree : m.state = .free) (hEomOk : m.EomOk) (hHer : e.herNew = true)
    (hHh : e.herNewHasHh = hasHh her) (hTh : e.herNewHasTh = hasTh her) (hEom : e.herNewIsEom = her.eom) :
    Progress j her (m.next e) [newPkt her] [her] [] 0 := by
  have hBusy : fsmState e m ≠ .free := by
    rw [fsmState, hFree]
    cases hasHh her <;> simp [hHer, hHh] <;> split <;> simp
  refine ⟨rfl, ?_, fun _ => ?_, ?_⟩
  · rw [next_hasCompletion, hFree, hHer, hTh]
    rfl
  · rw [next_eomSeen e m hEomOk.free, beq_false_of_ne hBusy, hEomOk.free hFree, hHer, hEom]
    cases hSeen : her.eom with
    | true => exact ⟨[], her, rfl, fun x hx => absurd hx List.not_mem_nil, hSeen⟩
    | false =>
      intro x hx
      rw [List.mem_singleton.mp hx, hSeen]
  · rw [next_state, fsmState, hFree, hHer, hHh]
    cases hh : hasHh her with
    | true => exact ⟨hh, rfl, rfl⟩
    | false =>
      refine ⟨fun h => absurd (hh.symm.trans h) Bool.false_ne_true, [], [her], rfl, rfl, ?_⟩
      rw [startedTasks, headerTasks, hh]
      rfl

end Step

end FPsPIN.MpqEngine
