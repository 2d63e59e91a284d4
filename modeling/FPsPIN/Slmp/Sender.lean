import Mathlib.Algebra.BigOperators.Fin
import Mathlib.Algebra.Order.BigOperators.Group.Finset
import Mathlib.Data.List.FinRange
import FPsPIN.Lib.Trace
import FPsPIN.Slmp.Packets

/-!
# Sending a message

Function slmp_sendmsg: the first packet is sent and acknowledged alone, the
middle packets by a parallel loop, the last one after the loop. Threads take
the iterations in any order and interleave in any way; an iteration reads
exit_flag when a thread enters it and sends later. How many acknowledgements a
call of drain_ack_timeout returns, and whether a sendto succeeds, is left to the
network. The loop variable has its sequential value after the loop, as with gcc
also when there is no iteration. A failed call leaves out some packets, among
them the one marked as end of message.
-/

namespace FPsPIN.Slmp

open FPsPIN.Bytes FPsPIN.Trace

/-- An open socket; slmp_socket refuses other thread counts. -/
structure Sock where
  wndSz : Nat
  align : Nat
  numThreads : Nat
  numThreads_pos : 0 < numThreads

namespace Sock

variable (sock : Sock)

def payloadSize : Nat := slmpPayloadSize / sock.align * sock.align

def ackForAll : Bool := decide (0 < sock.wndSz)

def windowThreadLimit : Nat := (sock.wndSz + sock.numThreads - 1) / sock.numThreads

def windowTotal : Nat := sock.windowThreadLimit * sock.numThreads

theorem payloadSize_le : sock.payloadSize ≤ slmpPayloadSize := Nat.div_mul_le_self _ _

theorem payloadSize_pos (hPos : 1 ≤ sock.align) (hLe : sock.align ≤ slmpPayloadSize) : 0 < sock.payloadSize :=
  Nat.mul_pos (Nat.div_pos hLe hPos) hPos

end Sock

/-- A call of slmp_sendmsg. -/
structure Call where
  sock : Sock
  msgid : BitVec 32
  buf : List Byte

namespace Call

variable (call : Call)

def sz : Nat := call.buf.length

/-- Number of iterations of the parallel loop. -/
def iterations : Nat :=
  (call.sz - 2 * call.sock.payloadSize + (call.sock.payloadSize - 1)) / call.sock.payloadSize

/-- Loop variable after the loop. -/
def curAfter : Nat := (call.iterations + 1) * call.sock.payloadSize

def loopOffsets : List Nat := (List.range call.iterations).map fun k => (k + 1) * call.sock.payloadSize

def toCopy (cur : Nat) : Nat :=
  if call.sz - cur > call.sock.payloadSize then call.sock.payloadSize else call.sz - cur

/-- The packet send_single builds. -/
def packet (hflags : BitVec 16) (cur : Nat) : Packet where
  flags := hflags
  msgId := call.msgid
  pktOff := BitVec.ofNat 32 cur
  payload := (call.buf.drop cur).take (call.toCopy cur)

def firstFlags : BitVec 16 := mkSyn ||| (if call.sock.payloadSize ≥ call.sz then mkEom else 0)

def loopFlags (cur : Nat) : BitVec 16 :=
  (if cur = 0 then mkSyn else 0) ||| (if call.sock.ackForAll then mkSyn else 0)

def loopExpectAck (cur : Nat) : Bool := cur == 0 || call.sock.ackForAll

def lastFlags : BitVec 16 := mkEom ||| mkSyn

def firstPacket : Packet := call.packet call.firstFlags 0

def loopPacket (cur : Nat) : Packet := call.packet (call.loopFlags cur) cur

def lastPacket : Packet := call.packet lastFlags call.curAfter

def packets : List Packet :=
  call.firstPacket :: (call.loopOffsets.map call.loopPacket ++
    if call.curAfter < call.sz then [call.lastPacket] else [])

theorem lt_iterations_iff {k : Nat} (hPos : 0 < call.sock.payloadSize) :
    k < call.iterations ↔ (k + 1) * call.sock.payloadSize + call.sock.payloadSize < call.sz := by
  have hOne : call.sock.payloadSize ≤ (k + 1) * call.sock.payloadSize := Nat.le_mul_of_pos_left _ (by omega)
  rw [iterations, ← Nat.succ_le_iff, Nat.le_div_iff_mul_le hPos, Nat.succ_eq_add_one]
  omega

theorem curAfter_add_ge (hPos : 0 < call.sock.payloadSize) :
    call.sz ≤ call.curAfter + call.sock.payloadSize := by
  have hNot : ¬ call.iterations < call.iterations := Nat.lt_irrefl _
  rw [call.lt_iterations_iff hPos] at hNot
  exact Nat.le_of_not_lt hNot

theorem payloadSize_le_curAfter : call.sock.payloadSize ≤ call.curAfter :=
  Nat.le_mul_of_pos_left _ (Nat.succ_pos _)

theorem curAfter_lt_iff (hPos : 0 < call.sock.payloadSize) :
    call.curAfter < call.sz ↔ call.sock.payloadSize < call.sz := by
  constructor
  · exact fun h => Nat.lt_of_le_of_lt call.payloadSize_le_curAfter h
  · intro h
    cases hIter : call.iterations with
    | zero => rwa [curAfter, hIter, Nat.zero_add, Nat.one_mul]
    | succ n =>
      have hLoop := (call.lt_iterations_iff (k := n) hPos).mp (by omega)
      rwa [curAfter, hIter, Nat.succ_mul]

theorem loopOffsets_of_small (hPos : 0 < call.sock.payloadSize) (h : call.sz ≤ call.sock.payloadSize) :
    call.loopOffsets = [] := by
  have hNone : call.iterations = 0 := by
    by_contra hNe
    have hLoop := (call.lt_iterations_iff hPos).mp (Nat.pos_of_ne_zero hNe)
    omega
  rw [loopOffsets, hNone]
  rfl

end Call

inductive Phase where
  | syn
  | synAck
  | loop
  | last
  | drain (ret : Int)
  | returned (ret : Int)
deriving DecidableEq

structure Thread where
  /-- The iteration the thread is in. -/
  cur : Option Nat
  window : Int
  ret : Int

structure State (call : Call) where
  phase : Phase
  /-- Packets handed to sendto, oldest first. -/
  sent : List Packet
  /-- Iterations that no thread has entered. -/
  todo : List Nat
  thread : Fin call.sock.numThreads → Thread
  exitFlag : Bool
  windowLeft : Int

/-- What one step does, with the outcomes of its calls of drain_ack_timeout and sendto. -/
inductive Action (call : Call) where
  | syn (sendto : Bool)
  | synAck (acked : Int)
  | enter (t : Fin call.sock.numThreads) (cur : Nat)
  | send (t : Fin call.sock.numThreads) (reclaimed : List Int) (sendto : Bool)
  | join
  | last (reclaimed : List Int) (sendto : Bool)
  | drain (drained : Int)

/-- A value that drain_ack_timeout may return. -/
def drainable (toExpect v : Int) : Bool :=
  if toExpect ≤ 0 then v == 0 else decide (-1 ≤ v) && decide (v ≤ toExpect)

/-- The loop that waits for window; none if a wait times out. -/
def reclaim (expectAck : Bool) : List Int → Int → Option Int
  | [], window => if expectAck && window == 0 then none else some window
  | v :: vs, window =>
    if expectAck && window == 0 then (if v = 0 then none else reclaim expectAck vs (window + v)) else some window

structure Outcome where
  ret : Int
  window : Int
  out : List Packet

def sendSingle (pkt : Packet) (expectAck : Bool) (window : Int) (reclaimed : List Int) (sendto : Bool) : Outcome :=
  match reclaim expectAck reclaimed window with
  | none => ⟨-1, 0, []⟩
  | some left => if sendto then ⟨0, left - 1, [pkt]⟩ else ⟨-1, left, []⟩

theorem sendSingle_cases (pkt : Packet) (expectAck : Bool) (window : Int) (reclaimed : List Int) (sendto : Bool) :
    ((sendSingle pkt expectAck window reclaimed sendto).ret = 0 ∧
      (sendSingle pkt expectAck window reclaimed sendto).out = [pkt]) ∨
    ((sendSingle pkt expectAck window reclaimed sendto).ret = -1 ∧
      (sendSingle pkt expectAck window reclaimed sendto).out = []) := by
  unfold sendSingle
  cases reclaim expectAck reclaimed window with
  | none => exact Or.inr ⟨rfl, rfl⟩
  | some left =>
    cases sendto with
    | true => exact Or.inl ⟨rfl, rfl⟩
    | false => exact Or.inr ⟨rfl, rfl⟩

namespace State

variable {call : Call}

def init (call : Call) : State call where
  phase := .syn
  sent := []
  todo := call.loopOffsets
  thread _ := ⟨none, call.sock.windowThreadLimit, 0⟩
  exitFlag := false
  windowLeft := 0

variable (s : State call)

/-- The reduction over ret at the end of the parallel loop. -/
def retSum : Int := ∑ t, (s.thread t).ret

def windowSum : Int := ∑ t, (s.thread t).window

/-- All iterations are done. -/
def joinable : Bool := s.todo.isEmpty && (List.finRange call.sock.numThreads).all fun t => (s.thread t).cur.isNone

def sendSyn (sendto : Bool) : State call :=
  let o := sendSingle call.firstPacket true 1 [] sendto
  { s with phase := if o.ret < 0 then .returned (-3) else .synAck, sent := s.sent ++ o.out }

/-- A thread takes an iteration, and leaves it at once if exit_flag is set. -/
def enter (t : Fin call.sock.numThreads) (cur : Nat) : State call :=
  { s with
    todo := s.todo.erase cur
    thread := if s.exitFlag then s.thread else Function.update s.thread t { s.thread t with cur := some cur } }

def sendLoop (t : Fin call.sock.numThreads) (cur : Nat) (reclaimed : List Int) (sendto : Bool) : State call :=
  let o := sendSingle (call.loopPacket cur) (call.loopExpectAck cur) (s.thread t).window reclaimed sendto
  { s with
    sent := s.sent ++ o.out
    thread := Function.update s.thread t ⟨none, o.window, o.ret⟩
    exitFlag := s.exitFlag || o.ret != 0 }

def join : State call :=
  { s with phase := if s.retSum = 0 then .last else .returned (-1), windowLeft := s.windowSum }

def sendLast (reclaimed : List Int) (sendto : Bool) : State call :=
  if call.curAfter < call.sz then
    let o := sendSingle call.lastPacket true s.windowLeft reclaimed sendto
    { s with phase := .drain o.ret, sent := s.sent ++ o.out, windowLeft := o.window }
  else { s with phase := .drain 0 }

def toDrain : Int := call.sock.windowTotal - s.windowLeft

end State

def step {call : Call} (s : State call) : Action call → Option (State call)
  | .syn sendto => if s.phase = .syn then some (s.sendSyn sendto) else none
  | .synAck acked =>
    if s.phase = .synAck ∧ drainable 1 acked then
      some { s with phase := if acked = 0 then .returned (-2) else .loop }
    else none
  | .enter t cur =>
    if s.phase = .loop ∧ cur ∈ s.todo ∧ (s.thread t).cur = none then some (s.enter t cur) else none
  | .send t reclaimed sendto =>
    match (s.thread t).cur with
    | none => none
    | some cur =>
      if s.phase = .loop ∧ reclaimed.all (drainable call.sock.windowThreadLimit) then
        some (s.sendLoop t cur reclaimed sendto)
      else none
  | .join => if s.phase = .loop ∧ s.joinable then some s.join else none
  | .last reclaimed sendto =>
    if s.phase = .last ∧ reclaimed.all (drainable call.sock.windowTotal) then
      some (s.sendLast reclaimed sendto)
    else none
  | .drain drained =>
    match s.phase with
    | .drain ret =>
      if drainable s.toDrain drained then
        some { s with phase := .returned (if drained < s.toDrain then -1 else ret) }
      else none
    | _ => none

/-- What a step does, with the guards under which it does it. -/
inductive StepCase {call : Call} (s : State call) : Action call → State call → Prop where
  | syn (sendto : Bool) (hPhase : s.phase = .syn) : StepCase s (.syn sendto) (s.sendSyn sendto)
  | synAck (acked : Int) (hPhase : s.phase = .synAck) (hDrainable : drainable 1 acked = true) :
      StepCase s (.synAck acked) { s with phase := if acked = 0 then .returned (-2) else .loop }
  | enter (t : Fin call.sock.numThreads) (cur : Nat) (hPhase : s.phase = .loop) (hMem : cur ∈ s.todo)
      (hIdle : (s.thread t).cur = none) : StepCase s (.enter t cur) (s.enter t cur)
  | send (t : Fin call.sock.numThreads) (cur : Nat) (reclaimed : List Int) (sendto : Bool)
      (hPhase : s.phase = .loop) (hCur : (s.thread t).cur = some cur)
      (hReclaimed : reclaimed.all (drainable call.sock.windowThreadLimit) = true) :
      StepCase s (.send t reclaimed sendto) (s.sendLoop t cur reclaimed sendto)
  | join (hPhase : s.phase = .loop) (hJoin : s.joinable = true) : StepCase s .join s.join
  | last (reclaimed : List Int) (sendto : Bool) (hPhase : s.phase = .last)
      (hReclaimed : reclaimed.all (drainable call.sock.windowTotal) = true) :
      StepCase s (.last reclaimed sendto) (s.sendLast reclaimed sendto)
  | drain (drained ret : Int) (hPhase : s.phase = .drain ret) (hDrainable : drainable s.toDrain drained = true) :
      StepCase s (.drain drained) { s with phase := .returned (if drained < s.toDrain then -1 else ret) }

theorem step_cases {call : Call} {s s' : State call} {a : Action call} (hStep : step s a = some s') :
    StepCase s a s' := by
  cases a with
  | syn sendto =>
    obtain ⟨hPhase, hNext⟩ := Option.ite_none_right_eq_some.mp hStep
    cases hNext
    exact StepCase.syn sendto hPhase
  | synAck acked =>
    obtain ⟨⟨hPhase, hDrainable⟩, hNext⟩ := Option.ite_none_right_eq_some.mp hStep
    cases hNext
    exact StepCase.synAck acked hPhase hDrainable
  | enter t cur =>
    obtain ⟨⟨hPhase, hMem, hIdle⟩, hNext⟩ := Option.ite_none_right_eq_some.mp hStep
    cases hNext
    exact StepCase.enter t cur hPhase hMem hIdle
  | send t reclaimed sendto =>
    simp only [step] at hStep
    split at hStep
    · cases hStep
    · rename_i cur hCur
      obtain ⟨⟨hPhase, hReclaimed⟩, hNext⟩ := Option.ite_none_right_eq_some.mp hStep
      cases hNext
      exact StepCase.send t cur reclaimed sendto hPhase hCur hReclaimed
  | join =>
    obtain ⟨⟨hPhase, hJoin⟩, hNext⟩ := Option.ite_none_right_eq_some.mp hStep
    cases hNext
    exact StepCase.join hPhase hJoin
  | last reclaimed sendto =>
    obtain ⟨⟨hPhase, hReclaimed⟩, hNext⟩ := Option.ite_none_right_eq_some.mp hStep
    cases hNext
    exact StepCase.last reclaimed sendto hPhase hReclaimed
  | drain drained =>
    simp only [step] at hStep
    split at hStep
    · rename_i ret hPhase
      obtain ⟨hDrainable, hNext⟩ := Option.ite_none_right_eq_some.mp hStep
      cases hNext
      exact StepCase.drain drained ret hPhase hDrainable
    · cases hStep

section Loop

variable {call : Call} {s : State call}

def flying {n : Nat} (thread : Fin n → Thread) : List Nat := (List.finRange n).filterMap fun t => (thread t).cur

def flyingOthers {n : Nat} (thread : Fin n → Thread) (t : Fin n) : List Nat :=
  ((List.finRange n).erase t).filterMap fun u => (thread u).cur

theorem flying_perm {n : Nat} (thread : Fin n → Thread) (t : Fin n) :
    (flying thread).Perm ((thread t).cur.toList ++ flyingOthers thread t) := by
  have hPerm := (List.perm_cons_erase (List.mem_finRange t)).filterMap fun u => (thread u).cur
  rw [List.filterMap_cons] at hPerm
  cases hCur : (thread t).cur with
  | none =>
    rw [hCur] at hPerm
    exact hPerm
  | some cur =>
    rw [hCur] at hPerm
    exact hPerm

theorem flyingOthers_update {n : Nat} (thread : Fin n → Thread) (t : Fin n) (th : Thread) :
    flyingOthers (Function.update thread t th) t = flyingOthers thread t := by
  apply List.filterMap_congr
  intro u hu
  have hNe : u ≠ t := ((List.nodup_finRange n).mem_erase_iff.mp hu).1
  rw [Function.update_of_ne hNe]

theorem flying_enter {n cur : Nat} {thread : Fin n → Thread} {t : Fin n} (th : Thread)
    (hIdle : (thread t).cur = none) (hCur : th.cur = some cur) :
    (flying (Function.update thread t th)).Perm (cur :: flying thread) := by
  have hBefore := flying_perm thread t
  have hAfter := flying_perm (Function.update thread t th) t
  rw [flyingOthers_update, Function.update_self, hCur] at hAfter
  rw [hIdle] at hBefore
  exact hAfter.trans (hBefore.symm.cons cur)

theorem flying_leave {n cur : Nat} {thread : Fin n → Thread} {t : Fin n} {th : Thread}
    (hCur : (thread t).cur = some cur) (hIdle : th.cur = none) :
    (flying thread).Perm (cur :: flying (Function.update thread t th)) := by
  have hBefore := flying_perm thread t
  have hAfter := flying_perm (Function.update thread t th) t
  rw [flyingOthers_update, Function.update_self, hIdle] at hAfter
  rw [hCur] at hBefore
  exact hBefore.trans (hAfter.symm.cons cur)

/-- The flag is set exactly when a thread failed, and a thread that failed enters no iteration. -/
structure Returns {n : Nat} (thread : Fin n → Thread) (exitFlag : Bool) : Prop where
  failed : exitFlag = true → ∃ t, (thread t).ret ≠ 0
  stopped : ∀ t, (thread t).ret ≠ 0 → exitFlag = true ∧ (thread t).cur = none
  nonpos : ∀ t, (thread t).ret ≤ 0

namespace Returns

variable {n : Nat} {thread : Fin n → Thread} {exitFlag : Bool}

theorem update (h : Returns thread exitFlag) {t : Fin n} (th : Thread) (hRet : (thread t).ret = 0)
    (hStopped : th.ret ≠ 0 → th.cur = none) (hNonpos : th.ret ≤ 0) :
    Returns (Function.update thread t th) (exitFlag || th.ret != 0) where
  failed hExit := by
    by_cases hNew : th.ret = 0
    · obtain ⟨u, hu⟩ := h.failed (by simpa [hNew] using hExit)
      have hNe : u ≠ t := by
        rintro rfl
        exact hu hRet
      exact ⟨u, by rwa [Function.update_of_ne hNe]⟩
    · exact ⟨t, by rwa [Function.update_self]⟩
  stopped u hu := by
    by_cases hut : u = t
    · subst hut
      rw [Function.update_self] at hu ⊢
      exact ⟨by simp [hu], hStopped hu⟩
    · rw [Function.update_of_ne hut] at hu ⊢
      exact ⟨by simp [(h.stopped u hu).1], (h.stopped u hu).2⟩
  nonpos u := by
    by_cases hut : u = t
    · subst hut
      rwa [Function.update_self]
    · rw [Function.update_of_ne hut]
      exact h.nonpos u

theorem exitFlag_of_sum (h : Returns thread exitFlag) (hSum : ∑ t, (thread t).ret = 0) : exitFlag = false := by
  have hZero := (Finset.sum_eq_zero_iff_of_nonpos fun t _ => h.nonpos t).mp hSum
  cases hExit : exitFlag with
  | false => rfl
  | true =>
    obtain ⟨t, ht⟩ := h.failed hExit
    exact absurd (hZero t (Finset.mem_univ t)) ht

end Returns

/-- During the loop every iteration is waiting, in a thread, done or lost, and only a failure loses any. -/
structure Looping (s : State call) (ran lost : List Nat) : Prop where
  offsets : (lost ++ (ran ++ (flying s.thread ++ s.todo))).Perm call.loopOffsets
  kept : s.exitFlag = false → lost = []
  returns : Returns s.thread s.exitFlag

namespace Looping

variable {ran lost : List Nat}

theorem enter (h : Looping s ran lost) {t : Fin call.sock.numThreads} {cur : Nat} (hMem : cur ∈ s.todo)
    (hIdle : (s.thread t).cur = none) : ∃ lost', Looping (s.enter t cur) ran lost' := by
  have hTodo := List.perm_iff_count.mp (List.perm_cons_erase hMem)
  have hOffsets := List.perm_iff_count.mp h.offsets
  cases hExit : s.exitFlag with
  | true =>
    have hThread : (s.enter t cur).thread = s.thread := by simp [State.enter, hExit]
    refine ⟨cur :: lost, ?_, ?_, ?_⟩
    · rw [hThread, List.perm_iff_count]
      intro c
      have hCount := hOffsets c
      have hSplit := hTodo c
      simp only [State.enter, List.count_append, List.count_cons] at hCount hSplit ⊢
      omega
    · intro hFalse
      exact absurd (hFalse.symm.trans hExit) (by decide)
    · rw [hThread]
      exact h.returns
  | false =>
    have hThread : (s.enter t cur).thread = Function.update s.thread t { s.thread t with cur := some cur } := by
      simp [State.enter, hExit]
    have hRet : (s.thread t).ret = 0 := by
      by_contra hNe
      exact absurd ((h.returns.stopped t hNe).1.symm.trans hExit) (by decide)
    refine ⟨lost, ?_, h.kept, ?_⟩
    · have hFlying := List.perm_iff_count.mp (flying_enter { s.thread t with cur := some cur } hIdle rfl)
      rw [hThread, List.perm_iff_count]
      intro c
      have hCount := hOffsets c
      have hSplit := hTodo c
      have hMove := hFlying c
      simp only [State.enter, List.count_append, List.count_cons] at hCount hSplit hMove ⊢
      omega
    · have hUpdate := h.returns.update { s.thread t with cur := some cur } hRet
        (fun hNe => absurd hRet hNe) (Int.le_of_eq hRet)
      rw [hThread]
      simpa [State.enter, hRet] using hUpdate

theorem sendLoop (h : Looping s ran lost) {t : Fin call.sock.numThreads} {cur : Nat}
    (hCur : (s.thread t).cur = some cur) (reclaimed : List Int) (sendto : Bool) :
    ∃ ran' lost', (s.sendLoop t cur reclaimed sendto).sent = s.sent ++ ran'.map call.loopPacket ∧
      Looping (s.sendLoop t cur reclaimed sendto) (ran ++ ran') lost' := by
  have hRet : (s.thread t).ret = 0 := by
    by_contra hNe
    exact absurd ((h.returns.stopped t hNe).2.symm.trans hCur) (by simp)
  -- whether the packet was sent or lost, its offset leaves the ones in flight
  have hMoved : ∀ ran' lost', (lost' ++ ran').Perm (cur :: lost) →
      (lost' ++ (ran ++ ran' ++ (flying (s.sendLoop t cur reclaimed sendto).thread ++ s.todo))).Perm
        call.loopOffsets := by
    intro ran' lost' hPerm
    refine List.Perm.trans ?_ h.offsets
    have hFlying : (flying s.thread).Perm (cur :: flying (s.sendLoop t cur reclaimed sendto).thread) :=
      flying_leave hCur rfl
    rw [List.perm_iff_count] at hPerm hFlying ⊢
    intro c
    have hCount := hPerm c
    have hMove := hFlying c
    simp only [List.count_append, List.count_cons] at hCount hMove ⊢
    omega
  obtain ⟨hZero, hOut⟩ | ⟨hFail, hOut⟩ := sendSingle_cases (call.loopPacket cur) (call.loopExpectAck cur)
    (s.thread t).window reclaimed sendto
  · refine ⟨[cur], lost, ?_, ?_, ?_, ?_⟩
    · simp [State.sendLoop, hOut]
    · exact hMoved [cur] lost (List.perm_append_singleton cur lost)
    · intro hExit
      apply h.kept
      simpa [State.sendLoop, hZero] using hExit
    · exact h.returns.update _ hRet (fun _ => rfl) (Int.le_of_eq hZero)
  · refine ⟨[], cur :: lost, ?_, ?_, ?_, ?_⟩
    · simp [State.sendLoop, hOut]
    · exact hMoved [] (cur :: lost) (by rw [List.append_nil])
    · intro hExit
      simp [State.sendLoop, hFail] at hExit
    · exact h.returns.update _ hRet (fun _ => rfl) (by simp [hFail])

theorem done (h : Looping s ran lost) (hJoin : s.joinable = true) (hRet : s.retSum = 0) :
    ran.Perm call.loopOffsets := by
  have hLost := h.kept (h.returns.exitFlag_of_sum hRet)
  obtain ⟨hTodo, hIdle⟩ : s.todo = [] ∧ ∀ t, (s.thread t).cur = none := by
    simpa [State.joinable] using hJoin
  have hFlying : flying s.thread = [] := by
    simp [flying, hIdle]
  have hOffsets := h.offsets
  rw [hLost, hFlying, hTodo] at hOffsets
  simpa using hOffsets

theorem subset (h : Looping s ran lost) {cur : Nat} (hMem : cur ∈ ran) : cur ∈ call.loopOffsets :=
  h.offsets.subset (List.mem_append_right _ (List.mem_append_left _ hMem))

end Looping

end Loop

section Complete

variable {call : Call} {s s' : State call}

theorem eom_firstFlags : eom call.firstFlags = true ↔ call.sz ≤ call.sock.payloadSize := by
  unfold Call.firstFlags
  split
  · exact iff_of_true (by decide) ‹_›
  · exact iff_of_false (by decide) ‹_›

theorem eom_loopFlags (cur : Nat) : eom (call.loopFlags cur) = false := by
  unfold Call.loopFlags
  split <;> split <;> decide

/-- A message that was sent with its end marker was sent completely, first packet first. -/
def Complete (s : State call) : Prop :=
  (∃ pkt ∈ s.sent, eom pkt.flags = true) → s.sent.Perm call.packets ∧ s.sent.head? = some call.firstPacket

theorem complete_of_loop (hPos : 0 < call.sock.payloadSize) (ran : List Nat)
    (hSent : s.sent = call.firstPacket :: ran.map call.loopPacket) (hRan : ∀ cur ∈ ran, cur ∈ call.loopOffsets) :
    Complete s := by
  rintro ⟨pkt, hMem, hEom⟩
  rw [hSent, List.mem_cons, List.mem_map] at hMem
  obtain rfl | ⟨cur, -, rfl⟩ := hMem
  · have hSmall : call.sz ≤ call.sock.payloadSize := eom_firstFlags.mp hEom
    have hOffsets := call.loopOffsets_of_small hPos hSmall
    have hEmpty : ran = [] := by
      apply List.eq_nil_iff_forall_not_mem.mpr
      intro cur hCur
      have hMem := hRan cur hCur
      rw [hOffsets] at hMem
      cases hMem
    have hLast : ¬ call.curAfter < call.sz := fun h => absurd ((call.curAfter_lt_iff hPos).mp h) (by omega)
    have hPackets : call.packets = [call.firstPacket] := by simp [Call.packets, hOffsets, hLast]
    rw [hSent, hEmpty, hPackets]
    exact ⟨List.Perm.refl _, rfl⟩
  · exact absurd hEom (by simp [Call.loopPacket, Call.packet, eom_loopFlags])

/-- What has been sent in each phase. -/
def SendingIn (s : State call) : Phase → Prop
  | .syn => s.sent = [] ∧ Looping s [] []
  | .synAck => s.sent = [call.firstPacket] ∧ Looping s [] []
  | .loop => ∃ ran lost, s.sent = call.firstPacket :: List.map call.loopPacket ran ∧ Looping s ran lost
  | .last => ∃ ran, s.sent = call.firstPacket :: List.map call.loopPacket ran ∧ List.Perm ran call.loopOffsets
  | .drain _ => Complete s
  | .returned _ => Complete s

def Sending (s : State call) : Prop := SendingIn s s.phase

theorem sending_init (call : Call) : Sending (State.init call) := by
  refine ⟨rfl, ?_, fun _ => rfl, ?_⟩
  · have hFlying : flying (State.init call).thread = [] := by simp [flying, State.init]
    rw [hFlying]
    exact List.Perm.refl _
  · exact ⟨fun h => (by cases h), fun _ h => absurd rfl h, fun _ => Int.le_refl 0⟩

theorem sending_sendSyn (h : SendingIn s .syn) (sendto : Bool) : Sending (s.sendSyn sendto) := by
  obtain ⟨hSent, hLoop⟩ := h
  cases sendto with
  | true =>
    have hNext : (s.sendSyn true).sent = [call.firstPacket] := by
      change s.sent ++ [call.firstPacket] = _
      rw [hSent]
      rfl
    exact ⟨hNext, hLoop.offsets, hLoop.kept, hLoop.returns⟩
  | false =>
    rintro ⟨pkt, hMem, -⟩
    have hNext : (s.sendSyn false).sent = [] := by
      change s.sent ++ [] = _
      rw [hSent]
      rfl
    rw [hNext] at hMem
    cases hMem

theorem sending_join (hPos : 0 < call.sock.payloadSize) (h : SendingIn s .loop) (hJoin : s.joinable = true) :
    Sending s.join := by
  obtain ⟨ran, lost, hSent, hLoop⟩ := h
  by_cases hRet : s.retSum = 0
  · have hPhase : s.join.phase = .last := by simp [State.join, hRet]
    rw [Sending, hPhase]
    exact ⟨ran, hSent, hLoop.done hJoin hRet⟩
  · have hPhase : s.join.phase = .returned (-1) := by simp [State.join, hRet]
    rw [Sending, hPhase]
    exact complete_of_loop hPos ran hSent fun cur => hLoop.subset

theorem sending_sendLast (hPos : 0 < call.sock.payloadSize) (h : SendingIn s .last) (reclaimed : List Int)
    (sendto : Bool) : Sending (s.sendLast reclaimed sendto) := by
  obtain ⟨ran, hSent, hRan⟩ := h
  by_cases hLast : call.curAfter < call.sz
  · obtain ⟨-, hOut⟩ | ⟨-, hOut⟩ := sendSingle_cases call.lastPacket true s.windowLeft reclaimed sendto
    · have hNext : (s.sendLast reclaimed sendto).sent =
          call.firstPacket :: (ran.map call.loopPacket ++ [call.lastPacket]) := by
        simp [State.sendLast, hLast, hOut, hSent]
      have hPackets : call.packets =
          call.firstPacket :: (call.loopOffsets.map call.loopPacket ++ [call.lastPacket]) := by
        simp [Call.packets, hLast]
      have hComplete : Complete (s.sendLast reclaimed sendto) := by
        rintro -
        rw [hNext, hPackets]
        exact ⟨((hRan.map _).append_right _).cons _, rfl⟩
      simpa [Sending, SendingIn, State.sendLast, hLast] using hComplete
    · have hNext : (s.sendLast reclaimed sendto).sent = call.firstPacket :: ran.map call.loopPacket := by
        simp [State.sendLast, hLast, hOut, hSent]
      have hComplete := complete_of_loop hPos ran hNext fun cur hCur => hRan.subset hCur
      simpa [Sending, SendingIn, State.sendLast, hLast] using hComplete
  · have hNext : (s.sendLast reclaimed sendto).sent = call.firstPacket :: ran.map call.loopPacket := by
      simp [State.sendLast, hLast, hSent]
    have hPackets : call.packets = call.firstPacket :: call.loopOffsets.map call.loopPacket := by
      simp [Call.packets, hLast]
    have hComplete : Complete (s.sendLast reclaimed sendto) := by
      rintro -
      rw [hNext, hPackets]
      exact ⟨(hRan.map _).cons _, rfl⟩
    simpa [Sending, SendingIn, State.sendLast, hLast] using hComplete

theorem sending_step (hPos : 0 < call.sock.payloadSize) {a : Action call} (h : Sending s)
    (hStep : step s a = some s') : Sending s' := by
  cases step_cases hStep with
  | syn sendto hPhase => exact sending_sendSyn (hPhase ▸ h) sendto
  | synAck acked hPhase _ =>
    obtain ⟨hSent, hLoop⟩ : SendingIn s .synAck := hPhase ▸ h
    rcases eq_or_ne acked 0 with hAcked | hAcked
    · simp only [Sending, hAcked, if_true]
      exact complete_of_loop hPos [] hSent fun cur hCur => absurd hCur (by simp)
    · simp only [Sending, hAcked, if_false]
      exact ⟨[], [], hSent, hLoop.offsets, hLoop.kept, hLoop.returns⟩
  | enter t cur hPhase hMem hIdle =>
    obtain ⟨ran, lost, hSent, hLoop⟩ : SendingIn s .loop := hPhase ▸ h
    obtain ⟨lost', hLoop'⟩ := hLoop.enter hMem hIdle
    have hPhase' : (s.enter t cur).phase = .loop := hPhase
    rw [Sending, hPhase']
    exact ⟨ran, lost', hSent, hLoop'⟩
  | send t cur reclaimed sendto hPhase hCur _ =>
    obtain ⟨ran, lost, hSent, hLoop⟩ : SendingIn s .loop := hPhase ▸ h
    obtain ⟨ran', lost', hSent', hLoop'⟩ := hLoop.sendLoop hCur reclaimed sendto
    have hPhase' : (s.sendLoop t cur reclaimed sendto).phase = .loop := hPhase
    rw [Sending, hPhase']
    refine ⟨ran ++ ran', lost', ?_, hLoop'⟩
    rw [hSent', hSent, List.map_append, List.cons_append]
  | join hPhase hJoin => exact sending_join hPos (hPhase ▸ h) hJoin
  | last reclaimed sendto hPhase _ => exact sending_sendLast hPos (hPhase ▸ h) reclaimed sendto
  | drain drained ret hPhase _ =>
    have hComplete : SendingIn s (.drain ret) := hPhase ▸ h
    exact hComplete

theorem Sending.complete (hPos : 0 < call.sock.payloadSize) (h : Sending s) : Complete s := by
  unfold Sending at h
  cases hPhase : s.phase <;> rw [hPhase] at h
  case syn =>
    rintro ⟨pkt, hMem, -⟩
    rw [h.1] at hMem
    cases hMem
  case synAck => exact complete_of_loop hPos [] h.1 fun cur hCur => absurd hCur (by simp)
  case loop =>
    obtain ⟨ran, lost, hSent, hLoop⟩ := h
    exact complete_of_loop hPos ran hSent fun cur => hLoop.subset
  case last =>
    obtain ⟨ran, hSent, hRan⟩ := h
    exact complete_of_loop hPos ran hSent fun cur hCur => hRan.subset hCur
  case drain => exact h
  case returned => exact h

/-- Whatever the window, the threads and the network do, an end marker goes out only with everything else. -/
theorem complete_run (hPos : 0 < call.sock.payloadSize) {actions : List (Action call)}
    (hRun : run step (State.init call) actions = some s) : Complete s :=
  (run_invariant Sending (fun _ _ _ h hStep => sending_step hPos h hStep) (sending_init call) hRun).complete hPos

end Complete

end FPsPIN.Slmp
