import FPsPIN.FifoEngine.Refinement
import FPsPIN.MpqEngine.Pipeline

/-!
# Counters, queues and outstanding tasks

What the registers of an MPQ say about its packet queue and about the tasks
granted but not yet answered. Nothing is assumed about message boundaries:
a HER may arrive in any state. Feedbacks answer tasks that were taken, and
none is taken while more than 255 tasks of its MPQ are unanswered.
-/

namespace FPsPIN.MpqEngine

open Config Run

theorem count_eq {up down : Bool} {n : Nat} (hUp : up = true → n + 1 < counterRange)
    (hDown : down = true → 1 ≤ n) (hn : n < counterRange) :
    count up down n = n + up.toNat - down.toNat := by
  unfold counterRange at *
  cases up <;> cases down <;> simp_all [count, counterRange]
  omega

theorem count_mod {up down : Bool} {n : Nat} (hDown : down = true → 1 ≤ n) :
    count up down (n % counterRange) = (n + up.toNat - down.toNat) % counterRange := by
  unfold counterRange
  cases up <;> cases down <;> simp_all [count, counterRange]
  omega

section Next

variable (e : FsmEvents) (m : Mpq)

/-- A register that mpq_fsm keeps without an event follows mpq_fsm in every cycle. -/
theorem next_register {α : Type} (f : Mpq → α) (h : fsmUpdate e = false → f (mpqFsm e m) = f m) :
    f (m.next e) = f (mpqFsm e m) := by
  cases hUpdate : fsmUpdate e with
  | true => rw [Mpq.next, hUpdate, if_pos rfl]
  | false => rw [Mpq.next, hUpdate, if_neg Bool.false_ne_true, h hUpdate]

theorem fsmUpdate_eq_false :
    fsmUpdate e = false ↔ e.herNew = false ∧ e.taskSent = false ∧ e.feedback = false := by
  simp [fsmUpdate, and_assoc]

@[simp] theorem next_state : (m.next e).state = fsmState e m := by
  refine next_register e m Mpq.state (fun h => ?_)
  rw [fsmUpdate_eq_false] at h
  cases hState : m.state <;> simp [mpqFsm, fsmState, hState, h]

@[simp] theorem next_length :
    (m.next e).length = count e.herNew (e.taskSent && m.state == .payload) m.length := by
  refine next_register e m Mpq.length (fun h => ?_)
  rw [fsmUpdate_eq_false] at h
  simp [mpqFsm, count, h]

@[simp] theorem next_inFlight : (m.next e).inFlight = count e.taskSent e.feedback m.inFlight := by
  refine next_register e m Mpq.inFlight (fun h => ?_)
  rw [fsmUpdate_eq_false] at h
  simp [mpqFsm, count, h]

@[simp] theorem next_hasCompletion :
    (m.next e).hasCompletion =
      if m.state == .free && e.herNew then e.herNewHasTh else m.hasCompletion := by
  refine next_register e m Mpq.hasCompletion (fun h => ?_)
  rw [fsmUpdate_eq_false] at h
  simp [mpqFsm, h]

/-- In state Free the flag is clear, so it follows mpq_fsm as well. -/
theorem next_eomSeen (hFree : m.state = .free → m.eomSeen = false) :
    (m.next e).eomSeen =
      if fsmState e m == .free then false else m.eomSeen || (e.herNew && e.herNewIsEom) := by
  refine next_register e m Mpq.eomSeen (fun h => ?_)
  rw [fsmUpdate_eq_false] at h
  cases hState : m.state <;> simp [mpqFsm, fsmState, hState, h]
  rw [hFree hState]

end Next

theorem Mpq.valid_iff {m : Mpq} :
    m.valid = true ↔ m.state = .header ∨ (m.state = .payload ∧ 0 < m.length) ∨ m.state = .completion := by
  simp [Mpq.valid, or_assoc]

/-- Packets in the FIFO of an MPQ: the counted ones, and the last packet kept for the completion task. -/
def Mpq.held (m : Mpq) : Nat :=
  m.length +
    if m.hasCompletion = true ∧ (m.state = .payloadDraining ∨ m.state = .completion) then 1 else 0

/-- Outstanding tasks that each state of an MPQ allows. -/
def Mpq.Outstanding (m : Mpq) (g : Nat) : Prop :=
  match m.state with
  | .free | .header | .completion => g = 0
  | .headerRunning | .completionRunning => g = 1
  | .payload => True
  | .payloadDraining => 1 ≤ g

/-- The registers of an MPQ agree with a packet queue of length len. -/
structure Queued (m : Mpq) (len : Nat) : Prop where
  held : len = m.held
  completes : m.state = .completion → m.hasCompletion = true

theorem Queued.pops_nonempty {m : Mpq} {len : Nat} (h : Queued m len) {e : FsmEvents} (hValid : m.valid = true)
    (hPops : m.pops e = true) : 1 ≤ len := by
  rw [h.held, Mpq.held]
  rcases Mpq.valid_iff.mp hValid with hState | ⟨_, hLength⟩ | hState
  · simp [Mpq.pops, hState] at hPops
  · omega
  · rw [if_pos ⟨h.completes hState, Or.inr hState⟩]
    omega

theorem Queued.length_le {m : Mpq} {len : Nat} (h : Queued m len) : m.length ≤ len := by
  rw [h.held, Mpq.held]
  exact Nat.le_add_right _ _

theorem Queued.next_length_eq {m : Mpq} {len : Nat} (h : Queued m len) {e : FsmEvents}
    (hSent : e.taskSent = true → m.valid = true) (hRoom : len + 1 < counterRange) :
    (m.next e).length = m.length + e.herNew.toNat - (e.taskSent && m.state == .payload).toNat := by
  have hLe := h.length_le
  rw [next_length]
  refine count_eq (fun _ => by omega) (fun hDown => ?_) (by omega)
  rw [Bool.and_eq_true, beq_iff_eq] at hDown
  have hValid := Mpq.valid_iff.mp (hSent hDown.1)
  rw [hDown.2] at hValid
  exact Nat.succ_le_of_lt (by simpa using hValid)

theorem Queued.next {m : Mpq} {len : Nat} (h : Queued m len) {e : FsmEvents}
    (hSent : e.taskSent = true → m.valid = true) (hRoom : len + 1 < counterRange) :
    Queued (m.next e) (len + e.herNew.toNat - (e.taskSent && m.pops e).toNat) where
  held := by
    have hCompletes := h.completes
    have hValid := fun hSome => Mpq.valid_iff.mp (hSent hSome)
    rw [Mpq.held, h.next_length_eq hSent hRoom, next_hasCompletion, next_state, h.held]
    cases hState : m.state <;> cases hS : e.taskSent <;>
      simp only [Mpq.held, Mpq.pops, mpqFsm, fsmState, hState, hS] at * <;> grind
  completes := by
    have hCompletes := h.completes
    rw [next_state, next_hasCompletion]
    cases hState : m.state <;> simp only [fsmState, hState] at * <;> grind

theorem Queued.next_header {m : Mpq} {len : Nat} (h : Queued m len) {e : FsmEvents}
    (hSent : e.taskSent = true → m.valid = true) (hRoom : len + 1 < counterRange)
    (hHeader : m.state = .header → 0 < m.length) (hNext : (m.next e).state = .header) : 0 < (m.next e).length := by
  rw [h.next_length_eq hSent hRoom]
  rw [next_state] at hNext
  cases hState : m.state with
  | free =>
    have hNew : e.herNew = true := by
      cases hNew : e.herNew with
      | true => rfl
      | false =>
        rw [fsmState, hState, hNew] at hNext
        cases hNext
    have hKeeps : (MpqState.free == .payload) = false := rfl
    rw [hNew, hKeeps, Bool.and_false]
    exact Nat.succ_pos m.length
  | header =>
    have hKeeps : (MpqState.header == .payload) = false := rfl
    rw [hKeeps, Bool.and_false]
    exact Nat.add_pos_left (hHeader hState) _
  | headerRunning | payload | payloadDraining | completion | completionRunning =>
    rw [fsmState, hState] at hNext
    split_ifs at hNext

theorem Queued.nonempty {m : Mpq} {len : Nat} (h : Queued m len) (hHeader : m.state = .header → 0 < m.length)
    (hValid : m.valid = true) : 0 < len := by
  have hLe := h.length_le
  rcases Mpq.valid_iff.mp hValid with hState | ⟨_, hLength⟩ | hState
  · have hPos := hHeader hState
    omega
  · omega
  · rw [h.held, Mpq.held, if_pos ⟨h.completes hState, Or.inr hState⟩]
    omega

/-- The registers of an MPQ agree with a queue of length len and g outstanding tasks. -/
structure MpqBook (m : Mpq) (len g : Nat) : Prop extends Queued m len where
  inFlight : m.inFlight = g % counterRange
  outstanding : m.Outstanding g

theorem init_mpqBook : MpqBook ⟨.free, 0, 0, false, false⟩ 0 0 :=
  ⟨⟨rfl, fun h => by cases h⟩, rfl, rfl⟩

/-- The environment of one MPQ in one cycle. -/
structure LaneOk (m : Mpq) (len g : Nat) (e : FsmEvents) : Prop where
  sent : e.taskSent = true → m.valid = true
  feedback : e.feedback = true → 1 ≤ g ∧ g ≤ counterRange
  room : len + 1 < counterRange

theorem MpqBook.next_outstanding {m : Mpq} {len g : Nat} (h : MpqBook m len g) {e : FsmEvents}
    (hOk : LaneOk m len g e) :
    (m.next e).Outstanding (g + e.taskSent.toNat - e.feedback.toNat) := by
  have hSent := fun hSent => Mpq.valid_iff.mp (hOk.sent hSent)
  have hFeedback := hOk.feedback
  have hOut := h.outstanding
  have hInFlight := h.inFlight
  unfold counterRange at *
  cases hState : m.state <;> cases hS : e.taskSent <;> cases hF : e.feedback <;>
    simp only [Mpq.Outstanding, next_state, fsmState, hState, hS, hF] at * <;> grind

theorem MpqBook.next {m : Mpq} {len g : Nat} (h : MpqBook m len g) {e : FsmEvents}
    (hOk : LaneOk m len g e) :
    MpqBook (m.next e) (len + e.herNew.toNat - (e.taskSent && m.pops e).toNat)
      (g + e.taskSent.toNat - e.feedback.toNat) where
  toQueued := h.toQueued.next hOk.sent hOk.room
  inFlight := by
    rw [next_inFlight, h.inFlight]
    exact count_mod (fun hFeedback => (hOk.feedback hFeedback).1)
  outstanding := h.next_outstanding hOk

variable {p : Params}

/-- The engine holds the given packet queues and has g tasks of each MPQ outstanding. -/
structure Book (s : State p) (queues : Index p → List MpqPkt) (g : Index p → Nat) : Prop where
  refines : FifoEngine.Refines s.fifo queues
  mpq : ∀ j, MpqBook (s.mpqQ j) (queues j).length (g j)

/-- The environment of one cycle. -/
structure CycleOk (s : State p) (g : Index p → Nat) (i : Input p) : Prop where
  arb : arbValid s = true → (s.mpqQ i.mpqArbIdx).valid = true
  feedback : feedbackNew i = true → 1 ≤ g (feedbackMpqIdx i) ∧ g (feedbackMpqIdx i) ≤ counterRange

/-- The engine holds the given packet queues. -/
structure QueueBook (s : State p) (queues : Index p → List MpqPkt) : Prop where
  refines : FifoEngine.Refines s.fifo queues
  queued : ∀ j, Queued (s.mpqQ j) (queues j).length

theorem Book.queueBook {s : State p} {queues : Index p → List MpqPkt} {g : Index p → Nat}
    (h : Book s queues g) : QueueBook s queues :=
  ⟨h.refines, fun j => (h.mpq j).toQueued⟩

theorem QueueBook.room {s : State p} {queues : Index p → List MpqPkt} (h : QueueBook s queues) (j : Index p) :
    (queues j).length + 1 < counterRange := by
  have hLength := h.refines.length_le j
  have hSlots := p.slots_le
  simp only [numMpqStaticCells] at hLength
  unfold numMpqCells at hSlots
  unfold counterRange
  omega

theorem valid_of_sent {s : State p} {i : Input p}
    (hArb : arbValid s = true → (s.mpqQ i.mpqArbIdx).valid = true) {j : Index p}
    (hSent : (eventsOn s i j).taskSent = true) : (s.mpqQ j).valid = true := by
  simp only [eventsOn, grant, Bool.and_eq_true, beq_iff_eq] at hSent
  obtain ⟨⟨_, hValid⟩, rfl⟩ := hSent
  exact hArb hValid

theorem CycleOk.laneOk {s : State p} {queues : Index p → List MpqPkt} {g : Index p → Nat} {i : Input p}
    (hOk : CycleOk s g i) (h : Book s queues g) (j : Index p) :
    LaneOk (s.mpqQ j) (queues j).length (g j) (eventsOn s i j) where
  sent := valid_of_sent hOk.arb
  feedback hFeedback := by
    simp only [eventsOn, Bool.and_eq_true, beq_iff_eq] at hFeedback
    obtain ⟨hNew, rfl⟩ := hFeedback
    exact hOk.feedback hNew
  room := h.queueBook.room j

theorem QueueBook.legal {s : State p} {queues : Index p → List MpqPkt} {i : Input p} (h : QueueBook s queues)
    (hArb : arbValid s = true → (s.mpqQ i.mpqArbIdx).valid = true) :
    FifoEngine.Legal s.fifo (fifoInput s i) where
  push hPush := by
    simp only [fifoInput, herNew, herReady, Bool.and_eq_true, Bool.not_eq_true'] at hPush
    exact hPush.2
  pop hPop := by
    change fifoPop s i = true at hPop
    rw [fifoPop_eq, Bool.and_eq_true] at hPop
    have hValid := valid_of_sent (j := tasksentMpqIdx i) hArb (by simp [eventsOn, hPop.1])
    have hLen := (h.queued (tasksentMpqIdx i)).pops_nonempty hValid hPop.2
    rw [h.refines.fifoEmpty_eq, List.isEmpty_eq_false_iff]
    exact List.ne_nil_of_length_pos hLen

theorem abstractStep_fifoInput (s : State p) (i : Input p) (queues : Index p → List MpqPkt) (j : Index p) :
    FifoEngine.abstractStep queues (fifoInput s i) j =
      (if (eventsOn s i j).taskSent && (s.mpqQ j).pops (eventsOn s i j) then (queues j).tail else queues j) ++
        (herOn s i j).map newPkt := by
  have hPop : ((fifoInput s i).pop && (fifoInput s i).fifoPopId == j) =
      ((eventsOn s i j).taskSent && (s.mpqQ j).pops (eventsOn s i j)) := by
    change (fifoPop s i && tasksentMpqIdx i == j) = _
    rw [fifoPop_eq]
    by_cases hj : tasksentMpqIdx i = j
    · subst j
      simp [eventsOn]
    · have hBeq : (tasksentMpqIdx i == j) = false := beq_false_of_ne hj
      simp only [eventsOn, hBeq, Bool.and_false, Bool.false_and]
  have hPush : (if (fifoInput s i).push && (fifoInput s i).fifoPushId == j then [(fifoInput s i).newEl]
      else []) = (herOn s i j).map newPkt := by
    change (if herNew s i && newherMpqIdx i == j then [newPkt i.her] else []) = _
    rw [herOn]
    split_ifs <;> rfl
  change (if (fifoInput s i).pop && (fifoInput s i).fifoPopId == j then (queues j).tail else queues j) ++
    (if (fifoInput s i).push && (fifoInput s i).fifoPushId == j then [(fifoInput s i).newEl] else []) = _
  rw [hPop, hPush]

theorem length_herOn (s : State p) (i : Input p) (j : Index p) :
    (herOn s i j).length = (eventsOn s i j).herNew.toNat := by
  rw [herOn, eventsOn]
  cases herNew s i && newherMpqIdx i == j <;> rfl

theorem length_feedbackOn (s : State p) (i : Input p) (j : Index p) :
    (feedbackOn i j).length = (eventsOn s i j).feedback.toNat := by
  rw [feedbackOn, eventsOn]
  cases feedbackNew i && feedbackMpqIdx i == j <;> rfl

theorem length_grantsOn (s : State p) (i : Input p) (j : Index p) :
    (onMpq j (grants s i)).length = (eventsOn s i j).taskSent.toNat := by
  rw [onMpq_grants]
  cases (eventsOn s i j).taskSent <;> rfl

theorem QueueBook.length_step {s : State p} {queues : Index p → List MpqPkt} {i : Input p}
    (h : QueueBook s queues) (hArb : arbValid s = true → (s.mpqQ i.mpqArbIdx).valid = true) (j : Index p) :
    (FifoEngine.abstractStep queues (fifoInput s i) j).length =
      (queues j).length + (eventsOn s i j).herNew.toNat -
        ((eventsOn s i j).taskSent && (s.mpqQ j).pops (eventsOn s i j)).toNat := by
  rw [abstractStep_fifoInput, List.length_append, List.length_map, length_herOn]
  cases hPop : (eventsOn s i j).taskSent && (s.mpqQ j).pops (eventsOn s i j) with
  | false => simp
  | true =>
    rw [Bool.and_eq_true] at hPop
    have hLen := (h.queued j).pops_nonempty (valid_of_sent hArb hPop.1) hPop.2
    simp only [if_true, List.length_tail, Bool.toNat_true]
    omega

theorem QueueBook.step {s : State p} {queues : Index p → List MpqPkt} {i : Input p} (h : QueueBook s queues)
    (hArb : arbValid s = true → (s.mpqQ i.mpqArbIdx).valid = true) :
    QueueBook (step s i) (FifoEngine.abstractStep queues (fifoInput s i)) where
  refines := h.refines.step (h.legal hArb)
  queued j := by
    have hNext := (h.queued j).next (valid_of_sent hArb) (h.room j)
    change Queued (mpqD s i j) _
    rw [mpqD_apply, h.length_step hArb]
    exact hNext

theorem Book.step {s : State p} {queues : Index p → List MpqPkt} {g : Index p → Nat} {i : Input p}
    (h : Book s queues g) (hOk : CycleOk s g i) :
    Book (step s i) (FifoEngine.abstractStep queues (fifoInput s i))
      (fun j => g j + (eventsOn s i j).taskSent.toNat - (eventsOn s i j).feedback.toNat) where
  refines := (h.queueBook.step hOk.arb).refines
  mpq j := by
    have hNext := (h.mpq j).next (hOk.laneOk h j)
    change MpqBook (mpqD s i j) _ _
    rw [mpqD_apply, h.queueBook.length_step hOk.arb]
    exact hNext

section Runs

variable (b : Boot) (inputs : Nat → Input p)

def packetsAt (t : Nat) : Index p → List MpqPkt :=
  FifoEngine.queuesAt (fun u => fifoInput (runAt b inputs u) (inputs u)) t

theorem packetsAt_succ (t : Nat) :
    packetsAt b inputs (t + 1) =
      FifoEngine.abstractStep (packetsAt b inputs t) (fifoInput (runAt b inputs t) (inputs t)) := rfl

/-- Tasks of MPQ j granted and not answered. -/
def outstandingAt (t : Nat) (j : Index p) : Nat :=
  (grantsOn b inputs j 0 t).length - (feedbacksOn inputs j 0 t).length

def Arbitrated : Prop := ∀ t, arbValid (runAt b inputs t) = true →
  ((runAt b inputs t).mpqQ (inputs t).mpqArbIdx).valid = true

/-- The arbiter picks valid MPQs, and a feedback answers a task that was taken before. -/
structure Environment : Prop where
  arb : ∀ t, arbValid (runAt b inputs t) = true →
    ((runAt b inputs t).mpqQ (inputs t).mpqArbIdx).valid = true
  feedback : ∀ t j, feedbackOn (inputs t) j ≠ [] →
    (feedbacksOn inputs j 0 t).length < (tasksOn b inputs j 0 t).length

/-- No feedback is taken while more than 255 tasks of its MPQ are unanswered. -/
def FewUnanswered : Prop := ∀ t j, feedbackOn (inputs t) j ≠ [] →
  (tasksOn b inputs j 0 t).length ≤ (feedbacksOn inputs j 0 t).length + 255

variable {b inputs}

theorem Environment.feedbacks_le (h : Environment b inputs) (j : Index p) (t : Nat) :
    (feedbacksOn inputs j 0 t).length ≤ (tasksOn b inputs j 0 t).length := by
  induction t with
  | zero => exact Nat.le_refl _
  | succ t ih =>
    rw [feedbacksOn, tasksOn, window_succ _ (Nat.zero_le t), window_succ _ (Nat.zero_le t),
      List.length_append, List.length_append, ← feedbacksOn, ← tasksOn]
    by_cases hFeedback : feedbackOn (inputs t) j = []
    · rw [hFeedback, List.length_nil]
      omega
    · have hLt := h.feedback t j hFeedback
      have hOne : (feedbackOn (inputs t) j).length ≤ 1 := by
        rw [feedbackOn]
        split_ifs <;> simp
      omega

theorem Environment.cycleOk (h : Environment b inputs) (hFew : FewUnanswered b inputs) (t : Nat) :
    CycleOk (runAt b inputs t) (outstandingAt b inputs t) (inputs t) where
  arb := h.arb t
  feedback hNew := by
    have hOn : feedbackOn (inputs t) (feedbackMpqIdx (inputs t)) ≠ [] := by simp [feedbackOn, hNew]
    have hLow := h.feedback t _ hOn
    have hHigh := hFew t _ hOn
    have hPipe := pipeline_length b inputs (feedbackMpqIdx (inputs t)) t
    have hPending := length_pending_le b inputs (feedbackMpqIdx (inputs t)) t
    unfold outstandingAt counterRange
    omega

theorem outstandingAt_succ (h : Environment b inputs) (t : Nat) (j : Index p) :
    outstandingAt b inputs (t + 1) j =
      outstandingAt b inputs t j + (eventsOn (runAt b inputs t) (inputs t) j).taskSent.toNat -
        (eventsOn (runAt b inputs t) (inputs t) j).feedback.toNat := by
  have hLe := h.feedbacks_le j t
  have hPipe := pipeline_length b inputs j t
  have hGrants : (grantsOn b inputs j 0 (t + 1)).length = (grantsOn b inputs j 0 t).length +
      (eventsOn (runAt b inputs t) (inputs t) j).taskSent.toNat := by
    rw [grantsOn, window_succ _ (Nat.zero_le t), List.length_append, length_grantsOn, ← grantsOn]
  have hFeedbacks : (feedbacksOn inputs j 0 (t + 1)).length = (feedbacksOn inputs j 0 t).length +
      (eventsOn (runAt b inputs t) (inputs t) j).feedback.toNat := by
    rw [feedbacksOn, window_succ _ (Nat.zero_le t), List.length_append,
      length_feedbackOn (runAt b inputs t), ← feedbacksOn]
  unfold outstandingAt
  omega

theorem run_queueBook (hArb : Arbitrated b inputs) (t : Nat) :
    QueueBook (runAt b inputs t) (packetsAt b inputs t) := by
  induction t with
  | zero => exact ⟨FifoEngine.init_refines b.pkt b.pktRdata, fun _ => init_mpqBook.toQueued⟩
  | succ t ih => exact ih.step (hArb t)

theorem run_header (hArb : Arbitrated b inputs) (j : Index p) (t : Nat)
    (hState : ((runAt b inputs t).mpqQ j).state = .header) : 0 < ((runAt b inputs t).mpqQ j).length := by
  induction t with
  | zero => cases hState
  | succ t ih =>
    have hBook := run_queueBook hArb t
    have hNext : (runAt b inputs (t + 1)).mpqQ j =
        ((runAt b inputs t).mpqQ j).next (eventsOn (runAt b inputs t) (inputs t) j) := mpqD_apply _ _ j
    rw [hNext] at hState ⊢
    exact (hBook.queued j).next_header (valid_of_sent (hArb t)) (hBook.room j) ih hState

theorem packetsAt_of_valid (hArb : Arbitrated b inputs) {j : Index p} {t : Nat}
    (hValid : ((runAt b inputs t).mpqQ j).valid = true) : packetsAt b inputs t j ≠ [] :=
  List.ne_nil_of_length_pos (((run_queueBook hArb t).queued j).nonempty (run_header hArb j t) hValid)

theorem run_book (h : Environment b inputs) (hFew : FewUnanswered b inputs) (t : Nat) :
    Book (runAt b inputs t) (packetsAt b inputs t) (outstandingAt b inputs t) := by
  induction t with
  | zero => exact ⟨FifoEngine.init_refines b.pkt b.pktRdata, fun _ => init_mpqBook⟩
  | succ t ih =>
    have hStep := ih.step (h.cycleOk hFew t)
    rw [← packetsAt_succ, ← runAt_succ] at hStep
    exact ⟨hStep.refines, fun j => outstandingAt_succ h t j ▸ hStep.mpq j⟩

end Runs

end FPsPIN.MpqEngine
