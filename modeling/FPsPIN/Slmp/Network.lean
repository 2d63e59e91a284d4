import FPsPIN.Slmp.Acks

/-!
# The sender with its network

The sender whose waits for acknowledgements are computed by drain_ack_timeout
from what recvfrom and the clock give them. A wait of send_single and the send
after it are one step, as are a failed wait or send; an acknowledgement counts
as received when the step that waited for it is taken. The network answers a
packet at most once, and only a packet that was sent before.
-/

namespace FPsPIN.Slmp

open FPsPIN.Trace

/-- What a step of the sender does, with the polls of its waits and the outcome of its sendto. -/
inductive NetAction (call : Call) where
  | syn (sendto : Bool)
  | synAck (polls : List Poll)
  | enter (t : Fin call.sock.numThreads) (cur : Nat)
  | send (t : Fin call.sock.numThreads) (polls : List Poll) (sendto : Bool)
  | join
  | last (polls : List Poll) (sendto : Bool)
  | drain (polls : List Poll)

def waited (toExpect : Int) (needAll : Bool) (polls : List Poll) : Option Int :=
  match drainAckTimeout toExpect needAll polls with
  | some (v, []) => some v
  | _ => none

/-- The waits of a send_single: one if it is out of window, whose value is not zero or ends the call. -/
def reclaims (expectAck : Bool) (window totalWindow : Int) (polls : List Poll) : Option (List Int) :=
  if expectAck && window == 0 then (waited totalWindow false polls).map fun v => [v]
  else if polls.isEmpty then some [] else none

variable {call : Call}

namespace NetAction

def polls : NetAction call → List Poll
  | synAck polls => polls
  | send _ polls _ => polls
  | last polls _ => polls
  | drain polls => polls
  | _ => []

/-- The action of the sender, with the values its waits return. -/
def toAction (s : State call) : NetAction call → Option (Action call)
  | syn sendto => some (.syn sendto)
  | synAck polls => (waited 1 true polls).map .synAck
  | enter t cur => some (.enter t cur)
  | send t polls sendto =>
    match (s.thread t).cur with
    | none => none
    | some cur =>
      (reclaims (call.loopExpectAck cur) (s.thread t).window call.sock.windowThreadLimit polls).map
        fun reclaimed => .send t reclaimed sendto
  | join => some .join
  | last polls sendto =>
    (reclaims (decide (call.curAfter < call.sz)) s.windowLeft call.sock.windowTotal polls).map
      fun reclaimed => .last reclaimed sendto
  | drain polls => (waited s.toDrain true polls).map .drain

end NetAction

structure NetState (call : Call) where
  sender : State call
  /-- Packets whose acknowledgement was received, oldest first. -/
  acked : List Packet

def NetState.init (call : Call) : NetState call := ⟨State.init call, []⟩

/-- A step with the packets whose acknowledgements it receives. -/
def netStep (n : NetState call) (a : NetAction call × List Packet) : Option (NetState call) :=
  match a.1.toAction n.sender with
  | none => none
  | some act =>
    if a.2.length = acks a.1.polls ∧ (n.acked ++ a.2).Subperm n.sender.sent then
      (step n.sender act).map fun s => ⟨s, n.acked ++ a.2⟩
    else none

section Waits

theorem waited_spec {toExpect v : Int} {needAll : Bool} {polls : List Poll}
    (h : waited toExpect needAll polls = some v) : Drained toExpect 0 polls v := by
  unfold waited at h
  split at h
  · rename_i w hDrain
    cases h
    obtain ⟨used, rfl, hDrained⟩ := drainAckTimeout_spec hDrain
    rwa [List.append_nil]
  · cases h

theorem waited_good {toExpect v : Int} {needAll : Bool} {polls : List Poll}
    (h : waited toExpect needAll polls = some v) (hGood : ∀ poll ∈ polls, poll.recv.isBad = false)
    (hExpect : 0 ≤ toExpect) : v = acks polls ∧ v ≤ toExpect := by
  have hDrained := waited_spec h
  have hValue := hDrained.eq_acks hGood
  refine ⟨hValue, ?_⟩
  cases hDrained with
  | bad hCount _ => omega
  | counted hCount =>
    obtain hLe | rfl := hCount
    · exact hLe
    · simpa using hExpect

theorem reclaims_all {expectAck : Bool} {window total : Int} {polls : List Poll} {reclaimed : List Int}
    (h : reclaims expectAck window total polls = some reclaimed) : reclaimed.all (drainable total) = true := by
  unfold reclaims at h
  split at h
  · obtain ⟨v, hWait, rfl⟩ := Option.map_eq_some_iff.mp h
    rw [List.all_cons, (waited_spec hWait).drainable]
    rfl
  · split at h <;> cases h
    rfl

theorem reclaim_of_reclaims {expectAck : Bool} {window total : Int} {polls : List Poll} {reclaimed : List Int}
    (h : reclaims expectAck window total polls = some reclaimed)
    (hGood : ∀ poll ∈ polls, poll.recv.isBad = false) (hTotal : 0 ≤ total) :
    ((expectAck && window == 0) = false ∧ polls = [] ∧ reclaim expectAck reclaimed window = some window) ∨
    (expectAck = true ∧ window = 0 ∧ (acks polls : Int) ≤ total ∧
      waited total false polls = some (acks polls) ∧
      reclaim expectAck reclaimed window = if acks polls = 0 then none else some (acks polls : Int)) := by
  unfold reclaims at h
  split at h
  case isTrue hWait =>
    obtain ⟨hExpect, hZero⟩ : expectAck = true ∧ window = 0 := by simpa using hWait
    obtain ⟨v, hValue, rfl⟩ := Option.map_eq_some_iff.mp h
    obtain ⟨rfl, hLe⟩ := waited_good hValue hGood hTotal
    refine .inr ⟨hExpect, hZero, hLe, hValue, ?_⟩
    by_cases hNone : acks polls = 0
    · simp [reclaim, hExpect, hZero, hNone]
    · simp [reclaim, hExpect, hZero, hNone]
  case isFalse hLeft =>
    rw [Bool.not_eq_true] at hLeft
    obtain ⟨hNil, hNone⟩ := Option.ite_none_right_eq_some.mp h
    cases hNone
    exact .inl ⟨hLeft, List.isEmpty_iff.mp hNil, by simp [reclaim, hLeft]⟩

section Window

variable (pkt : Packet) {expectAck : Bool} {window total : Int} {polls : List Poll} {reclaimed : List Int}
  (sendto : Bool)

theorem sendSingle_account (h : reclaims expectAck window total polls = some reclaimed)
    (hGood : ∀ poll ∈ polls, poll.recv.isBad = false) (hTotal : 0 ≤ total) :
    (sendSingle pkt expectAck window reclaimed sendto).window +
      (sendSingle pkt expectAck window reclaimed sendto).out.length = window + acks polls := by
  unfold sendSingle
  obtain ⟨-, rfl, hReclaim⟩ | ⟨-, rfl, -, -, hReclaim⟩ := reclaim_of_reclaims h hGood hTotal
  · rw [hReclaim]
    cases sendto <;> simp
  · rw [hReclaim]
    split <;> cases sendto <;> simp_all

theorem sendSingle_bounds (h : reclaims true window total polls = some reclaimed)
    (hGood : ∀ poll ∈ polls, poll.recv.isBad = false) (hTotal : 0 ≤ total) (hLow : 0 ≤ window) :
    0 ≤ (sendSingle pkt true window reclaimed sendto).window ∧
      (window ≤ total → (sendSingle pkt true window reclaimed sendto).window ≤ total) := by
  unfold sendSingle
  obtain ⟨hLeft, -, hReclaim⟩ | ⟨-, rfl, hLe, -, hReclaim⟩ := reclaim_of_reclaims h hGood hTotal
  · have hNe : window ≠ 0 := by simpa using hLeft
    rw [hReclaim]
    cases sendto <;> simp <;> omega
  · rw [hReclaim]
    by_cases hNone : acks polls = 0
    · simp [hNone]
    · rw [if_neg hNone]
      cases sendto <;> simp <;> omega

end Window

end Waits

section Steps

variable {n n' : NetState call} {s s' : State call}

/-- What a step can do, with the action of the sender and its next state. -/
inductive NetStep (n : NetState call) (s' : State call) : NetAction call × List Packet → Action call → Prop where
  | syn {sendto : Bool} (hPhase : n.sender.phase = .syn) (hNext : s' = n.sender.sendSyn sendto) :
    NetStep n s' (.syn sendto, []) (.syn sendto)
  | synAck {polls : List Poll} {received : List Packet} {v : Int} (hPhase : n.sender.phase = .synAck)
    (hWait : waited 1 true polls = some v) (hLength : received.length = acks polls)
    (hNext : s' = { n.sender with phase := if v = 0 then .returned (-2) else .loop }) :
    NetStep n s' (.synAck polls, received) (.synAck v)
  | enter {t : Fin call.sock.numThreads} {cur : Nat} (hPhase : n.sender.phase = .loop)
    (hNext : s' = n.sender.enter t cur) : NetStep n s' (.enter t cur, []) (.enter t cur)
  | send {t : Fin call.sock.numThreads} {cur : Nat} {polls : List Poll} {received : List Packet}
    {reclaimed : List Int} {sendto : Bool} (hPhase : n.sender.phase = .loop)
    (hCur : (n.sender.thread t).cur = some cur)
    (hReclaims : reclaims (call.loopExpectAck cur) (n.sender.thread t).window call.sock.windowThreadLimit polls =
      some reclaimed) (hLength : received.length = acks polls)
    (hNext : s' = n.sender.sendLoop t cur reclaimed sendto) :
    NetStep n s' (.send t polls sendto, received) (.send t reclaimed sendto)
  | join (hPhase : n.sender.phase = .loop) (hNext : s' = n.sender.join) : NetStep n s' (.join, []) .join
  | last {polls : List Poll} {received : List Packet} {reclaimed : List Int} {sendto : Bool}
    (hPhase : n.sender.phase = .last)
    (hReclaims : reclaims (decide (call.curAfter < call.sz)) n.sender.windowLeft call.sock.windowTotal polls =
      some reclaimed) (hLength : received.length = acks polls)
    (hNext : s' = n.sender.sendLast reclaimed sendto) :
    NetStep n s' (.last polls sendto, received) (.last reclaimed sendto)
  | drain {polls : List Poll} {received : List Packet} {ret drained : Int} (hPhase : n.sender.phase = .drain ret)
    (hWait : waited n.sender.toDrain true polls = some drained) (hLength : received.length = acks polls)
    (hNext : s' = { n.sender with phase := .returned (if drained < n.sender.toDrain then -1 else ret) }) :
    NetStep n s' (.drain polls, received) (.drain drained)

theorem netStep_of_step {net : NetAction call} {received : List Packet} {act : Action call}
    (hAct : net.toAction n.sender = some act) (hStep : step n.sender act = some s')
    (hLength : received.length = acks net.polls) : NetStep n s' (net, received) act := by
  -- a step without a wait receives nothing
  have hNone : net.polls = [] → received = [] := by
    intro hNil
    rw [hNil] at hLength
    exact List.eq_nil_of_length_eq_zero hLength
  cases net with
  | syn sendto =>
    cases hAct
    cases step_cases hStep with
    | syn _ hPhase =>
      rw [hNone rfl]
      exact .syn hPhase rfl
  | synAck polls =>
    obtain ⟨v, hWait, rfl⟩ := Option.map_eq_some_iff.mp hAct
    cases step_cases hStep with
    | synAck _ hPhase _ => exact .synAck hPhase hWait hLength rfl
  | enter t cur =>
    cases hAct
    cases step_cases hStep with
    | enter _ _ hPhase _ _ =>
      rw [hNone rfl]
      exact .enter hPhase rfl
  | send t polls sendto =>
    simp only [NetAction.toAction] at hAct
    split at hAct
    · cases hAct
    · rename_i cur hCur
      obtain ⟨reclaimed, hReclaims, rfl⟩ := Option.map_eq_some_iff.mp hAct
      cases step_cases hStep with
      | send _ cur' _ _ hPhase hCur' _ =>
        cases hCur.symm.trans hCur'
        exact .send hPhase hCur hReclaims hLength rfl
  | join =>
    cases hAct
    cases step_cases hStep with
    | join hPhase _ =>
      rw [hNone rfl]
      exact .join hPhase rfl
  | last polls sendto =>
    obtain ⟨reclaimed, hReclaims, rfl⟩ := Option.map_eq_some_iff.mp hAct
    cases step_cases hStep with
    | last _ _ hPhase _ => exact .last hPhase hReclaims hLength rfl
  | drain polls =>
    obtain ⟨drained, hWait, rfl⟩ := Option.map_eq_some_iff.mp hAct
    cases step_cases hStep with
    | drain _ ret hPhase _ => exact .drain hPhase hWait hLength rfl

theorem netStep_cases {a : NetAction call × List Packet} (h : netStep n a = some n') :
    ∃ act s', NetStep n s' a act ∧ step n.sender act = some s' ∧ (n.acked ++ a.2).Subperm n.sender.sent ∧
      n' = ⟨s', n.acked ++ a.2⟩ := by
  unfold netStep at h
  split at h
  · cases h
  · rename_i act hAct
    obtain ⟨⟨hLength, hSub⟩, hMap⟩ := Option.ite_none_right_eq_some.mp h
    obtain ⟨next, hStep, rfl⟩ := Option.map_eq_some_iff.mp hMap
    exact ⟨act, next, netStep_of_step hAct hStep hLength, hStep, hSub, rfl⟩

theorem netStep_eq {net : NetAction call} {received : List Packet} {act : Action call}
    (hAct : net.toAction n.sender = some act) (hStep : step n.sender act = some s')
    (hLength : received.length = acks net.polls) (hSub : (n.acked ++ received).Subperm n.sender.sent) :
    netStep n (net, received) = some ⟨s', n.acked ++ received⟩ := by
  simp only [netStep, hAct]
  rw [if_pos ⟨hLength, hSub⟩, hStep]
  rfl

end Steps

end FPsPIN.Slmp
