import Mathlib.Algebra.Order.Ring.Int
import FPsPIN.Slmp.Segmentation
import FPsPIN.Slmp.Window

/-!
# A message that is served perfectly

Every packet arrives, every packet with SYN is acknowledged once and in time,
and no socket call fails. With a window above zero every packet carries SYN and
the call succeeds. A window of zero stands for no limit in the source, but only
a message of one packet gets through: with two packets the last one waits for
a window that is zero for good, and with more the final drain waits for an
acknowledgement of each of them while those of the loop carry no SYN.
-/

namespace FPsPIN.Slmp

open FPsPIN.Trace

variable {call : Call}

namespace NetState

variable (n : NetState call)

def synSent : List Packet := n.sender.sent.filter fun pkt => syn pkt.flags

/-- Packets whose acknowledgement is due. -/
def pending : List Packet := n.synSent.diff n.acked

end NetState

def NetAction.sends : NetAction call → Bool
  | syn sendto => sendto
  | send _ _ sendto => sendto
  | last _ sendto => sendto
  | _ => true

/-- No wait ends for want of an acknowledgement that is due. -/
def prompt (n : NetState call) (a : NetAction call × List Packet) : Bool :=
  match a.1 with
  | .synAck _ => a.2.length == min 1 n.pending.length
  | .drain _ => a.2.length == min n.sender.toDrain.toNat n.pending.length
  | net => net.polls.isEmpty || n.pending.isEmpty || !a.2.isEmpty

def Served (n : NetState call) (a : NetAction call × List Packet) : Prop :=
  a.1.sends = true ∧ (∀ poll ∈ a.1.polls, poll.recv.isBad = false) ∧ (n.acked ++ a.2).Subperm n.synSent ∧
    prompt n a = true

instance (n : NetState call) (a : NetAction call × List Packet) : Decidable (Served n a) :=
  inferInstanceAs (Decidable (_ ∧ _ ∧ _ ∧ _))

/-- Every served run ends, and it ends with all packets sent and 0 returned. -/
structure Succeeds (call : Call) : Prop where
  ends : ∃ bound, ∀ as n, Along netStep Served (NetState.init call) as →
    run netStep (NetState.init call) as = some n → as.length ≤ bound
  advances : ∀ as n, Along netStep Served (NetState.init call) as → run netStep (NetState.init call) as = some n →
    (∀ ret, n.sender.phase ≠ .returned ret) → ∃ a next, Served n a ∧ netStep n a = some next
  success : ∀ as n ret, Along netStep Served (NetState.init call) as →
    run netStep (NetState.init call) as = some n → n.sender.phase = .returned ret →
    ret = 0 ∧ n.sender.sent.Perm call.packets

section Rank

/-- Steps that are left: an iteration takes two. -/
def rank (s : State call) : Nat :=
  2 * s.todo.length + (flying s.thread).length +
    match s.phase with
    | .syn => 5
    | .synAck => 4
    | .loop => 3
    | .last => 2
    | .drain _ => 1
    | .returned _ => 0

theorem length_flying_enter {s : State call} {t : Fin call.sock.numThreads} (cur : Nat)
    (hIdle : (s.thread t).cur = none) :
    (flying (s.enter t cur).thread).length ≤ (flying s.thread).length + 1 := by
  cases hExit : s.exitFlag with
  | true =>
    have hThread : (s.enter t cur).thread = s.thread := by simp [State.enter, hExit]
    rw [hThread]
    exact Nat.le_succ _
  | false =>
    have hThread : (s.enter t cur).thread = Function.update s.thread t { s.thread t with cur := some cur } := by
      simp [State.enter, hExit]
    rw [hThread]
    exact Nat.le_of_eq (flying_enter { s.thread t with cur := some cur } hIdle rfl).length_eq

theorem rank_step {s s' : State call} {a : Action call} (hStep : step s a = some s') : rank s' < rank s := by
  cases step_cases hStep with
  | syn sendto hPhase => cases sendto <;> simp [rank, State.sendSyn, sendSingle, reclaim, hPhase]
  | synAck acked hPhase _ => rcases eq_or_ne acked 0 with hAcked | hAcked <;> simp [rank, hPhase, hAcked]
  | enter t cur hPhase hMem hIdle =>
    have hTodo : (s.todo.erase cur).length + 1 = s.todo.length := by
      rw [List.length_erase_of_mem hMem]
      have hPos := List.length_pos_of_mem hMem
      omega
    have hPhase' : (s.enter t cur).phase = .loop := hPhase
    have hTodo' : (s.enter t cur).todo = s.todo.erase cur := rfl
    have hFlying := length_flying_enter cur hIdle
    simp only [rank, hPhase, hPhase', hTodo']
    omega
  | send t cur reclaimed sendto hPhase hCur _ =>
    have hFlying : (flying s.thread).Perm (cur :: flying (s.sendLoop t cur reclaimed sendto).thread) :=
      flying_leave hCur rfl
    have hLength := hFlying.length_eq
    have hPhase' : (s.sendLoop t cur reclaimed sendto).phase = .loop := hPhase
    have hTodo : (s.sendLoop t cur reclaimed sendto).todo = s.todo := rfl
    rw [List.length_cons] at hLength
    simp only [rank, hPhase, hPhase', hTodo]
    omega
  | join hPhase hJoin => rcases eq_or_ne s.retSum 0 with hRet | hRet <;> simp [rank, State.join, hPhase, hRet]
  | last reclaimed sendto hPhase _ =>
    by_cases hLast : call.curAfter < call.sz <;> simp [rank, State.sendLast, hPhase, hLast]
  | drain drained ret hPhase _ => simp [rank, hPhase]

theorem netStep_rank {n n' : NetState call} {a : NetAction call × List Packet} (hStep : netStep n a = some n') :
    rank n'.sender < rank n.sender := by
  obtain ⟨act, s', -, hSender, -, rfl⟩ := netStep_cases hStep
  exact rank_step hSender

end Rank

section Pending

variable {n n' : NetState call}

theorem synSent_perm (h : n.acked.Subperm n.synSent) : (n.acked ++ n.pending).Perm n.synSent :=
  List.subperm_append_diff_self_of_count_le (List.subperm_ext_iff.mp h)

theorem length_pending (h : n.acked.Subperm n.synSent) :
    n.acked.length + n.pending.length = n.synSent.length := by
  rw [← (synSent_perm h).length_eq, List.length_append]

theorem exists_received (h : n.acked.Subperm n.synSent) {k : Nat} (hk : k ≤ n.pending.length) :
    ∃ received : List Packet, received.length = k ∧ (n.acked ++ received).Subperm n.synSent := by
  refine ⟨n.pending.take k, List.length_take_of_le hk, ?_⟩
  have hSub : (n.acked ++ n.pending.take k).Sublist (n.acked ++ n.pending) :=
    List.Sublist.append_left (List.take_sublist _ _) _
  exact hSub.subperm.trans (synSent_perm h).subperm

theorem acked_step {a : NetAction call × List Packet} (hServed : Served n a) (hStep : netStep n a = some n') :
    n'.acked.Subperm n'.synSent := by
  obtain ⟨act, s', -, hSender, -, rfl⟩ := netStep_cases hStep
  obtain ⟨out, hSent⟩ := step_sent hSender
  obtain ⟨-, -, hSub, -⟩ := hServed
  rw [NetState.synSent, hSent, List.filter_append]
  exact hSub.trans (List.sublist_append_left _ _).subperm

theorem Served.goodReplies {a : NetAction call × List Packet} (h : Served n a) : goodReplies a.1 = true := by
  obtain ⟨-, hGood, -⟩ := h
  obtain ⟨net, received⟩ := a
  cases net with
  | drain _ => rfl
  | _ => simpa [Slmp.goodReplies] using hGood

theorem acks_of_prompt {polls : List Poll} {received : List Packet} {total v : Int}
    (hPrompt : (polls.isEmpty || n.pending.isEmpty || !received.isEmpty) = true) (hDue : 0 < n.pending.length)
    (hWait : waited total false polls = some v) (hTotal : 0 < total) (hLength : received.length = acks polls) :
    acks polls ≠ 0 := by
  have hPolls : polls ≠ [] := by
    rintro rfl
    have hNe : total ≠ 0 := by omega
    simp [waited, drainAckTimeout, drainLoop, hNe, hTotal] at hWait
  have hPending : n.pending ≠ [] := List.ne_nil_of_length_pos hDue
  have hReceived : received ≠ [] := by simpa [hPolls, hPending] using hPrompt
  rw [← hLength]
  exact fun hNil => hReceived (List.eq_nil_of_length_eq_zero hNil)

theorem sendSingle_served (pkt : Packet) {expectAck : Bool} {window total : Int} {polls : List Poll}
    {reclaimed : List Int} (h : reclaims expectAck window total polls = some reclaimed)
    (hGood : ∀ poll ∈ polls, poll.recv.isBad = false) (hTotal : 0 ≤ total)
    (hWait : expectAck = true → window = 0 → waited total false polls = some (acks polls : Int) →
    acks polls ≠ 0) :
    (sendSingle pkt expectAck window reclaimed true).ret = 0 := by
  unfold sendSingle
  obtain ⟨-, -, hReclaim⟩ | ⟨hExpect, hZero, -, hWaited, hReclaim⟩ := reclaim_of_reclaims h hGood hTotal
  · rw [hReclaim]
    rfl
  · rw [hReclaim, if_neg (hWait hExpect hZero hWaited)]
    rfl

theorem exists_waited {toExpect : Int} {k : Nat} (needAll : Bool) (h : (k : Int) ≤ toExpect) :
    ∃ polls, waited toExpect needAll polls = some (k : Int) ∧ acks polls = k ∧
      ∀ poll ∈ polls, poll.recv.isBad = false := by
  rcases Int.lt_or_eq_of_le (Int.le_trans (Int.natCast_nonneg k) h) with hPos | hZero
  · obtain ⟨polls, hDrain, hAcks, hGood⟩ := drainAckTimeout_replies needAll hPos h
    exact ⟨polls, by rw [waited, hDrain], hAcks, hGood⟩
  · have hNone : k = 0 := by omega
    refine ⟨[], ?_, hNone.symm, fun poll hMem => absurd hMem List.not_mem_nil⟩
    rw [waited, drainAckTimeout, if_pos hZero.symm, hNone]
    rfl

/-- What a prompt network gives a step that may wait for window. -/
structure Reply (n : NetState call) (polls : List Poll) (received : List Packet) : Prop where
  good : ∀ poll ∈ polls, poll.recv.isBad = false
  length : received.length = acks polls
  sub : (n.acked ++ received).Subperm n.synSent
  prompt : (polls.isEmpty || n.pending.isEmpty || !received.isEmpty) = true

theorem reply_nil (h : n.acked.Subperm n.synSent) : Reply n [] [] where
  good _ hMem := absurd hMem List.not_mem_nil
  length := rfl
  sub := by rwa [List.append_nil]
  prompt := rfl

theorem exists_reclaims (h : n.acked.Subperm n.synSent) (expectAck : Bool) (window : Int) {total : Int}
    (hTotal : 0 < total) (hDue : expectAck = true → window = 0 → 0 < n.pending.length) :
    ∃ polls received reclaimed, reclaims expectAck window total polls = some reclaimed ∧
      Reply n polls received := by
  cases hWait : expectAck && window == 0 with
  | true =>
    obtain ⟨hExpect, hZero⟩ : expectAck = true ∧ window = 0 := by simpa using hWait
    obtain ⟨polls, hWaited, hAcks, hGood⟩ := exists_waited (k := 1) false (Int.add_one_le_of_lt hTotal)
    obtain ⟨received, hLength, hSub⟩ := exists_received h (hDue hExpect hZero)
    have hReceived : received ≠ [] := List.ne_nil_of_length_pos (by omega)
    refine ⟨polls, received, [1], ?_, hGood, hLength.trans hAcks.symm, hSub, by simp [hReceived]⟩
    rw [reclaims, hWait, if_pos rfl, hWaited]
    rfl
  | false =>
    refine ⟨[], [], [], ?_, reply_nil h⟩
    rw [reclaims, hWait]
    rfl

theorem exists_served {net : NetAction call} {received : List Packet} {act : Action call} {s' : State call}
    (hAct : net.toAction n.sender = some act) (hStep : step n.sender act = some s') (hSends : net.sends = true)
    (hGood : ∀ poll ∈ net.polls, poll.recv.isBad = false) (hLength : received.length = acks net.polls)
    (hSub : (n.acked ++ received).Subperm n.synSent) (hPrompt : prompt n (net, received) = true) :
    ∃ a next, Served n a ∧ netStep n a = some next :=
  ⟨(net, received), _, ⟨hSends, hGood, hSub, hPrompt⟩,
    netStep_eq hAct hStep hLength (hSub.trans List.filter_sublist.subperm)⟩

end Pending

section Serving

variable {n n' : NetState call}

theorem syn_of_mem_packets (hPos : 0 < call.sock.payloadSize)
    (hMode : 0 < call.sock.wndSz ∨ call.sz ≤ call.sock.payloadSize) {pkt : Packet} (hMem : pkt ∈ call.packets) :
    syn pkt.flags = true := by
  rw [Call.packets, List.mem_cons, List.mem_append, List.mem_map] at hMem
  obtain rfl | ⟨cur, hCur, rfl⟩ | hLast := hMem
  · exact syn_firstFlags
  · obtain hWnd | hSmall := hMode
    · exact (syn_loopFlags (call.mem_loopOffsets hPos hCur).2.1).mpr hWnd
    · rw [call.loopOffsets_of_small hPos hSmall] at hCur
      cases hCur
  · split at hLast
    · have hFlags : syn Call.lastFlags = true := by decide
      rwa [List.mem_singleton.mp hLast]
    · cases hLast

/-- A served call that sends every packet with SYN. -/
structure Serving (n : NetState call) : Prop where
  accounts : Accounts n
  unfailed : Unfailed n.sender
  acked : n.acked.Subperm n.synSent
  succeeded : ∀ ret, n.sender.phase = .drain ret ∨ n.sender.phase = .returned ret → ret = 0

theorem serving_init (call : Call) : Serving (NetState.init call) where
  accounts := accounts_init call
  unfailed := unfailed_init call
  acked := List.nil_subperm
  succeeded _ h := by
    obtain h | h := h <;> cases h

namespace Serving

variable (hPos : 0 < call.sock.payloadSize) (hMode : 0 < call.sock.wndSz ∨ call.sz ≤ call.sock.payloadSize)
include hPos hMode

theorem due (h : Serving n) : n.acked.length + n.pending.length = n.sender.sent.length := by
  have hAll : n.synSent = n.sender.sent :=
    List.filter_eq_self.mpr fun pkt hMem =>
      syn_of_mem_packets hPos hMode (packets_of_unfailed h.unfailed pkt hMem)
  rw [length_pending h.acked, hAll]

theorem windowed_of_cur (h : Serving n) (hPhase : n.sender.phase = .loop) {t : Fin call.sock.numThreads}
    {cur : Nat} (hCur : (n.sender.thread t).cur = some cur) : 0 < call.sock.wndSz := by
  have hMem := mem_loopOffsets_of_cur (hPhase ▸ h.unfailed.sending) hCur
  obtain hWnd | hSmall := hMode
  · exact hWnd
  · rw [call.loopOffsets_of_small hPos hSmall] at hMem
    cases hMem

theorem due_loop (h : Serving n) (hWnd : 0 < call.sock.wndSz) (hPhase : n.sender.phase = .loop)
    {t : Fin call.sock.numThreads} (hZero : (n.sender.thread t).window = 0) : 0 < n.pending.length := by
  obtain ⟨hWindows, hBalanced⟩ := h.accounts.of_phase hPhase
  have hLimit : 0 < call.sock.windowThreadLimit := Nat.pos_of_mul_pos_right (windowTotal_pos call.sock hWnd)
  have hSum : n.sender.windowSum < call.sock.windowTotal := by
    calc n.sender.windowSum < ∑ _u : Fin call.sock.numThreads, (call.sock.windowThreadLimit : Int) :=
          Finset.sum_lt_sum (fun u _ => (hWindows hWnd u).2) ⟨t, Finset.mem_univ t, by omega⟩
      _ = call.sock.windowTotal := by
          simp [Sock.windowTotal, Int.mul_comm]
  have hDue := h.due hPos hMode
  have hAccount := hBalanced.account
  omega

theorem due_last (h : Serving n) (hWnd : 0 < call.sock.wndSz) (hPhase : n.sender.phase = .last)
    (hZero : n.sender.windowLeft = 0) : 0 < n.pending.length := by
  have hBalanced : Balanced n n.sender.windowLeft := h.accounts.of_phase hPhase
  have hTotal := windowTotal_pos call.sock hWnd
  have hDue := h.due hPos hMode
  have hAccount := hBalanced.account
  omega

theorem sends (h : Serving n) {a : NetAction call × List Packet} (hServed : Served n a) {act : Action call}
    {s' : State call} (hCases : NetStep n s' a act) : sendFails n.sender act = false := by
  obtain ⟨hSends, hGood, -, hPrompt⟩ := hServed
  cases hCases with
  | @syn sendto _ _ =>
    obtain rfl : sendto = true := hSends
    rfl
  | @synAck polls received v hPhase hWait hLength _ =>
    obtain ⟨hValue, -⟩ := waited_good hWait hGood (by decide)
    obtain ⟨hSent, hAcked, -⟩ := h.accounts.of_phase hPhase
    have hDue := h.due hPos hMode
    have hReceived : received.length = min 1 n.pending.length := by simpa [prompt] using hPrompt
    rw [hSent, hAcked, List.length_nil, List.length_singleton] at hDue
    have hOne : v = 1 := by omega
    rw [hOne]
    rfl
  | enter _ _ => rfl
  | @send t cur _ _ _ sendto hPhase hCur hReclaims hLength _ =>
    obtain rfl : sendto = true := hSends
    have hWnd := h.windowed_of_cur hPos hMode hPhase hCur
    have hLimit : 0 < call.sock.windowThreadLimit := Nat.pos_of_mul_pos_right (windowTotal_pos call.sock hWnd)
    have hRet := sendSingle_served (call.loopPacket cur) hReclaims hGood (Int.natCast_nonneg _)
      fun _ hZero hWait => acks_of_prompt hPrompt (h.due_loop hPos hMode hWnd hPhase hZero) hWait
        (Int.natCast_pos.mpr hLimit) hLength
    simp [sendFails, hCur, hRet]
  | join _ _ => rfl
  | @last _ _ _ sendto hPhase hReclaims hLength _ =>
    obtain rfl : sendto = true := hSends
    by_cases hLast : call.curAfter < call.sz
    · have hWnd : 0 < call.sock.wndSz := by
        have hLarge := (call.curAfter_lt_iff hPos).mp hLast
        omega
      rw [decide_eq_true hLast] at hReclaims
      have hRet := sendSingle_served call.lastPacket hReclaims hGood (Int.natCast_nonneg _)
        fun _ hZero hWait => acks_of_prompt hPrompt (h.due_last hPos hMode hWnd hPhase hZero) hWait
          (Int.natCast_pos.mpr (windowTotal_pos call.sock hWnd)) hLength
      simp [sendFails, hRet]
    · simp [sendFails, hLast]
  | drain _ _ _ _ => rfl

theorem drained (h : Serving n) {ret drained : Int} {polls : List Poll} {received : List Packet}
    (hServed : Served n (.drain polls, received)) (hPhase : n.sender.phase = .drain ret)
    (hWait : waited n.sender.toDrain true polls = some drained) (hLength : received.length = acks polls) :
    ¬ drained < n.sender.toDrain := by
  obtain ⟨-, hGood, -, hPrompt⟩ := hServed
  have hBalanced : Balanced n n.sender.windowLeft := h.accounts.of_phase hPhase
  have hAccount := hBalanced.account
  have hDue := h.due hPos hMode
  have hReceived : received.length = min n.sender.toDrain.toNat n.pending.length := by
    simpa [prompt] using hPrompt
  have hValue := (waited_spec hWait).eq_acks hGood
  unfold State.toDrain at hReceived ⊢
  omega

theorem step (h : Serving n) {a : NetAction call × List Packet} (hServed : Served n a)
    (hNet : netStep n a = some n') : Serving n' := by
  obtain ⟨act, s', hCases, hStep, -, rfl⟩ := netStep_cases hNet
  have hSends := h.sends hPos hMode hServed hCases
  refine ⟨accounts_step h.accounts hServed.goodReplies hNet, unfailed_step hPos h.unfailed hSends hStep,
    acked_step hServed hNet, fun ret hEnd => ?_⟩
  cases hCases with
  | @syn sendto _ hNext =>
    have hRet : (sendSingle call.firstPacket true 1 [] sendto).ret = 0 := by simpa [sendFails] using hSends
    simp [hNext, State.sendSyn, hRet] at hEnd
  | @synAck _ _ v _ _ _ hNext =>
    have hAcked : v ≠ 0 := by simpa [sendFails] using hSends
    simp [hNext, hAcked] at hEnd
  | enter hPhase hNext => simp [hNext, State.enter, hPhase] at hEnd
  | send hPhase _ _ _ hNext => simp [hNext, State.sendLoop, hPhase] at hEnd
  | join hPhase hNext =>
    obtain ⟨ran, lost, -, hLoop⟩ : SendingIn n.sender .loop := hPhase ▸ h.unfailed.sending
    have hRet : n.sender.retSum = 0 := hLoop.returns.sum_eq_zero h.unfailed.running
    simp [hNext, State.join, hRet] at hEnd
  | @last _ _ reclaimed sendto _ _ _ hNext =>
    by_cases hLast : call.curAfter < call.sz
    · have hRet : (sendSingle call.lastPacket true n.sender.windowLeft reclaimed sendto).ret = 0 := by
        simpa [sendFails, hLast] using hSends
      simpa [hNext, State.sendLast, hLast, hRet, eq_comm] using hEnd
    · simpa [hNext, State.sendLast, hLast, eq_comm] using hEnd
  | @drain _ _ before _ hPhase hWait hLength hNext =>
    have hZero := h.succeeded before (.inl hPhase)
    have hAll := h.drained hPos hMode hServed hPhase hWait hLength
    simpa [hNext, hAll, hZero, eq_comm] using hEnd

theorem exists_send (h : Serving n) (hPhase : n.sender.phase = .loop) {t : Fin call.sock.numThreads} {cur : Nat}
    (hCur : (n.sender.thread t).cur = some cur) : ∃ a next, Served n a ∧ netStep n a = some next := by
  have hWnd := h.windowed_of_cur hPos hMode hPhase hCur
  have hLimit : 0 < call.sock.windowThreadLimit := Nat.pos_of_mul_pos_right (windowTotal_pos call.sock hWnd)
  obtain ⟨polls, received, reclaimed, hReclaims, hReply⟩ := exists_reclaims h.acked (call.loopExpectAck cur)
    (n.sender.thread t).window (Int.natCast_pos.mpr hLimit) fun _ hZero => h.due_loop hPos hMode hWnd hPhase hZero
  have hAct : NetAction.toAction n.sender (.send t polls true) = some (.send t reclaimed true) := by
    simp only [NetAction.toAction, hCur, hReclaims]
    rfl
  have hStep : Slmp.step n.sender (.send t reclaimed true) = some (n.sender.sendLoop t cur reclaimed true) := by
    simp only [Slmp.step, hCur]
    exact if_pos ⟨hPhase, reclaims_all hReclaims⟩
  exact exists_served hAct hStep rfl hReply.good hReply.length hReply.sub hReply.prompt

theorem exists_last (h : Serving n) (hPhase : n.sender.phase = .last) :
    ∃ a next, Served n a ∧ netStep n a = some next := by
  obtain ⟨polls, received, reclaimed, hReclaims, hReply⟩ : ∃ polls received reclaimed,
      reclaims (decide (call.curAfter < call.sz)) n.sender.windowLeft call.sock.windowTotal polls =
        some reclaimed ∧
        Reply n polls received := by
    by_cases hLast : call.curAfter < call.sz
    · have hWnd : 0 < call.sock.wndSz := by
        have hLarge := (call.curAfter_lt_iff hPos).mp hLast
        omega
      exact exists_reclaims h.acked _ _ (Int.natCast_pos.mpr (windowTotal_pos call.sock hWnd))
        fun _ hZero => h.due_last hPos hMode hWnd hPhase hZero
    · rw [decide_eq_false hLast]
      exact ⟨[], [], [], rfl, reply_nil h.acked⟩
  have hAct : NetAction.toAction n.sender (.last polls true) = some (.last reclaimed true) := by
    simp only [NetAction.toAction, hReclaims]
    rfl
  have hStep : Slmp.step n.sender (.last reclaimed true) = some (n.sender.sendLast reclaimed true) :=
    if_pos ⟨hPhase, reclaims_all hReclaims⟩
  exact exists_served hAct hStep rfl hReply.good hReply.length hReply.sub hReply.prompt

theorem exists_synAck (h : Serving n) (hPhase : n.sender.phase = .synAck) :
    ∃ a next, Served n a ∧ netStep n a = some next := by
  obtain ⟨hSent, hAcked, -⟩ := h.accounts.of_phase hPhase
  have hDue := h.due hPos hMode
  rw [hSent, hAcked, List.length_nil, List.length_singleton, Nat.zero_add] at hDue
  obtain ⟨polls, hWait, hAcks, hGood⟩ := exists_waited (k := 1) true (Int.le_refl 1)
  obtain ⟨received, hLength, hSub⟩ := exists_received h.acked (Nat.le_of_eq hDue.symm)
  have hAct : NetAction.toAction n.sender (.synAck polls) = some (.synAck 1) := by
    simp only [NetAction.toAction]
    rw [hWait]
    rfl
  have hStep : Slmp.step n.sender (.synAck 1) = some { n.sender with phase := .loop } := if_pos ⟨hPhase, rfl⟩
  exact exists_served hAct hStep rfl hGood (hLength.trans hAcks.symm) hSub (by simp [prompt, hLength, hDue])

theorem exists_loop (h : Serving n) (hPhase : n.sender.phase = .loop) :
    ∃ a next, Served n a ∧ netStep n a = some next := by
  have hReply := reply_nil h.acked
  by_cases hIdle : ∀ t, (n.sender.thread t).cur = none
  · cases hTodo : n.sender.todo with
    | nil =>
      have hJoin : n.sender.joinable = true := by simp [State.joinable, hTodo, hIdle]
      have hAct : NetAction.toAction n.sender .join = some .join := rfl
      have hStep : Slmp.step n.sender .join = some n.sender.join := if_pos ⟨hPhase, hJoin⟩
      exact exists_served hAct hStep rfl hReply.good hReply.length hReply.sub hReply.prompt
    | cons cur rest =>
      let t : Fin call.sock.numThreads := ⟨0, call.sock.numThreads_pos⟩
      have hMem : cur ∈ n.sender.todo := by simp [hTodo]
      have hAct : NetAction.toAction n.sender (.enter t cur) = some (.enter t cur) := rfl
      have hStep : Slmp.step n.sender (.enter t cur) = some (n.sender.enter t cur) :=
        if_pos ⟨hPhase, hMem, hIdle t⟩
      exact exists_served hAct hStep rfl hReply.good hReply.length hReply.sub hReply.prompt
  · obtain ⟨t, hBusy⟩ := not_forall.mp hIdle
    obtain ⟨cur, hCur⟩ := Option.ne_none_iff_exists'.mp hBusy
    exact h.exists_send hPos hMode hPhase hCur

theorem exists_drain (h : Serving n) {ret : Int} (hPhase : n.sender.phase = .drain ret) :
    ∃ a next, Served n a ∧ netStep n a = some next := by
  have hBalanced : Balanced n n.sender.windowLeft := h.accounts.of_phase hPhase
  have hAccount := hBalanced.account
  have hDue := h.due hPos hMode
  have hToDrain : n.sender.toDrain = n.pending.length := by
    unfold State.toDrain
    omega
  obtain ⟨polls, hWait, hAcks, hGood⟩ := exists_waited true (Int.le_of_eq hToDrain.symm)
  obtain ⟨received, hLength, hSub⟩ := exists_received h.acked (Nat.le_refl _)
  have hAct : NetAction.toAction n.sender (.drain polls) = some (.drain n.pending.length) := by
    simp only [NetAction.toAction]
    rw [hWait]
    rfl
  have hStep : ∃ s', Slmp.step n.sender (.drain n.pending.length) = some s' := by
    simp only [Slmp.step, hPhase]
    exact ⟨_, if_pos (waited_spec hWait).drainable⟩
  obtain ⟨s', hStep⟩ := hStep
  exact exists_served hAct hStep rfl hGood (hLength.trans hAcks.symm) hSub (by simp [prompt, hLength, hToDrain])

theorem advances (h : Serving n) (hOpen : ∀ ret, n.sender.phase ≠ .returned ret) :
    ∃ a next, Served n a ∧ netStep n a = some next := by
  cases hPhase : n.sender.phase with
  | syn =>
    have hReply := reply_nil h.acked
    have hAct : NetAction.toAction n.sender (.syn true) = some (.syn true) := rfl
    have hStep : Slmp.step n.sender (.syn true) = some (n.sender.sendSyn true) := if_pos hPhase
    exact exists_served hAct hStep rfl hReply.good hReply.length hReply.sub hReply.prompt
  | synAck => exact h.exists_synAck hPos hMode hPhase
  | loop => exact h.exists_loop hPos hMode hPhase
  | last => exact h.exists_last hPos hMode hPhase
  | drain ret => exact h.exists_drain hPos hMode hPhase
  | returned ret => exact absurd hPhase (hOpen ret)

end Serving

theorem succeeds_of_mode (hPos : 0 < call.sock.payloadSize)
    (hMode : 0 < call.sock.wndSz ∨ call.sz ≤ call.sock.payloadSize) : Succeeds call := by
  have hServing : ∀ as n, Along netStep Served (NetState.init call) as →
      run netStep (NetState.init call) as = some n → Serving n := fun as n hAlong hRun =>
    along_invariant Serving (fun _ _ _ h hServed hStep => h.step hPos hMode hServed hStep) (serving_init call)
      hAlong hRun
  refine ⟨⟨rank (State.init call), fun as n _ hRun => ?_⟩, ?_, ?_⟩
  · have hLength := run_length_le (fun n => rank n.sender) (fun _ _ _ => netStep_rank) hRun
    exact Nat.le_trans (Nat.le_add_right _ _) hLength
  · exact fun as n hAlong hRun hOpen => (hServing as n hAlong hRun).advances hPos hMode hOpen
  · intro as n ret hAlong hRun hPhase
    have h := hServing as n hAlong hRun
    exact ⟨h.succeeded ret (.inr hPhase), (h.unfailed.ended ret (.inr hPhase)).perm⟩

end Serving

section Starving

variable {n n' : NetState call}

/-- A served call of several packets without a window. -/
structure Starving (n : NetState call) : Prop where
  accounts : Accounts n
  sending : Sending n.sender
  acked : n.acked.Subperm n.synSent
  /-- Some packet of the loop will have no acknowledgement. -/
  silent : n.sender.phase = .drain 0 → ∃ pkt ∈ n.sender.sent, syn pkt.flags = false
  failed : n.sender.phase ≠ .returned 0

theorem starving_init (call : Call) : Starving (NetState.init call) where
  accounts := accounts_init call
  sending := sending_init call
  acked := List.nil_subperm
  silent h := by cases h
  failed h := by cases h

theorem windowTotal_of_zero (hWnd : call.sock.wndSz = 0) : call.sock.windowTotal = 0 := by
  have hThreads := call.sock.numThreads_pos
  rw [Sock.windowTotal, Sock.windowThreadLimit, hWnd, Nat.div_eq_of_lt (by omega), Nat.zero_mul]

variable (hPos : 0 < call.sock.payloadSize) (hWnd : call.sock.wndSz = 0)
  (hLarge : call.sock.payloadSize < call.sz)
include hPos hWnd hLarge

theorem Starving.sendLast (h : Starving n) (hPhase : n.sender.phase = .last) {polls : List Poll}
    {reclaimed : List Int} {sendto : Bool}
    (hReclaims : reclaims (decide (call.curAfter < call.sz)) n.sender.windowLeft call.sock.windowTotal polls =
      some reclaimed) (hGood : ∀ poll ∈ polls, poll.recv.isBad = false)
    (hEnd : (n.sender.sendLast reclaimed sendto).phase = .drain 0) :
    ∃ pkt ∈ n.sender.sent, syn pkt.flags = false := by
  obtain ⟨ran, hSent, hRan⟩ : SendingIn n.sender .last := hPhase ▸ h.sending
  have hLast : call.curAfter < call.sz := (call.curAfter_lt_iff hPos).mpr hLarge
  cases ran with
  | cons cur rest =>
    refine ⟨call.loopPacket cur, by simp [hSent], ?_⟩
    have hCur := (call.mem_loopOffsets hPos (hRan.subset List.mem_cons_self)).2.1
    exact Bool.eq_false_iff.mpr fun hSyn => absurd ((syn_loopFlags hCur).mp hSyn) (by omega)
  | nil =>
    have hBalanced : Balanced n n.sender.windowLeft := h.accounts.of_phase hPhase
    have hTotal := windowTotal_of_zero hWnd
    have hZero : n.sender.windowLeft = 0 := by
      have hAccount := hBalanced.account
      have hLe := h.accounts.subperm.length_le
      have hFirst : n.acked ≠ [] := by
        intro hNil
        have hHead := hBalanced.ackedFirst
        rw [hNil] at hHead
        cases hHead
      have hAcked := List.length_pos_of_ne_nil hFirst
      rw [hSent, List.map_nil, List.length_singleton] at hAccount hLe
      omega
    rw [decide_eq_true hLast, hZero, hTotal] at hReclaims
    have hNone : reclaim true reclaimed 0 = none := by
      obtain ⟨hNever, -⟩ | ⟨-, -, hLe, -, hReclaim⟩ := reclaim_of_reclaims hReclaims hGood (Int.le_refl 0)
      · cases hNever
      · rw [hReclaim, if_pos (by omega)]
    simp [State.sendLast, hLast, sendSingle, hZero, hNone] at hEnd

theorem Starving.step (h : Starving n) {a : NetAction call × List Packet} (hServed : Served n a)
    (hNet : netStep n a = some n') : Starving n' := by
  have hAccounts := accounts_step h.accounts hServed.goodReplies hNet
  have hAcked := acked_step hServed hNet
  obtain ⟨act, s', hCases, hStep, -, rfl⟩ := netStep_cases hNet
  have hSending := sending_step hPos h.sending hStep
  obtain ⟨-, hGood, -, -⟩ := hServed
  have hOther : s'.phase ≠ .drain 0 → s'.phase ≠ .returned 0 → Starving ⟨s', n.acked ++ a.2⟩ :=
    fun hDrain hReturned => ⟨hAccounts, hSending, hAcked, fun hEnd => absurd hEnd hDrain, hReturned⟩
  cases hCases with
  | @syn sendto _ hNext => cases sendto <;> apply hOther <;> simp [hNext, State.sendSyn, sendSingle, reclaim]
  | @synAck _ _ v _ _ _ hNext => by_cases hZero : v = 0 <;> apply hOther <;> simp [hNext, hZero]
  | enter hPhase hNext => apply hOther <;> simp [hNext, State.enter, hPhase]
  | send hPhase _ _ _ hNext => apply hOther <;> simp [hNext, State.sendLoop, hPhase]
  | join _ hNext => by_cases hRet : n.sender.retSum = 0 <;> apply hOther <;> simp [hNext, State.join, hRet]
  | last hPhase hReclaims _ hNext =>
    obtain ⟨out, hSent⟩ := step_sent hStep
    refine ⟨hAccounts, hSending, hAcked, fun hEnd => ?_, ?_⟩
    · obtain ⟨pkt, hMem, hSyn⟩ := h.sendLast hPos hWnd hLarge hPhase hReclaims hGood (hNext ▸ hEnd)
      exact ⟨pkt, hSent ▸ List.mem_append_left _ hMem, hSyn⟩
    · by_cases hLast : call.curAfter < call.sz <;> simp [hNext, State.sendLast, hLast]
  | @drain _ _ before drained hPhase _ _ hNext =>
    refine ⟨hAccounts, hSending, hAcked, by simp [hNext], fun hReturned => ?_⟩
    have hBefore : before = 0 := by
      have hRet : (if drained < n.sender.toDrain then -1 else before) = 0 := by simpa [hNext] using hReturned
      split at hRet
      · exact absurd hRet (by decide)
      · exact hRet
    obtain ⟨pkt, hMem, hSyn⟩ := h.silent (hBefore ▸ hPhase)
    -- all packets are acknowledged, hence all carry SYN
    have hLength := (hAccounts.of_phase hReturned).2 rfl
    have hLe := hAcked.length_le
    rw [hLength] at hLe
    have hAll := List.length_filter_eq_length_iff.mp (Nat.le_antisymm (List.length_filter_le _ _) hLe)
    have hSent : s'.sent = n.sender.sent := by rw [hNext]
    exact absurd ((hAll pkt (hSent ▸ hMem)).symm.trans hSyn) (by decide)

theorem not_succeeds : ¬ Succeeds call := by
  intro hSucceeds
  obtain ⟨bound, hBound⟩ := hSucceeds.ends
  obtain ⟨as, n, hAlong, hRun, ret, hPhase⟩ : ∃ as n, Along netStep Served (NetState.init call) as ∧
      run netStep (NetState.init call) as = some n ∧ ∃ ret, n.sender.phase = .returned ret :=
    exists_done hBound fun as n hAlong hRun hOpen =>
      hSucceeds.advances as n hAlong hRun fun ret hPhase => hOpen ⟨ret, hPhase⟩
  have hStarving : Starving n := along_invariant Starving
    (fun _ _ _ h hServed hStep => h.step hPos hWnd hLarge hServed hStep) (starving_init call) hAlong hRun
  obtain ⟨rfl, -⟩ := hSucceeds.success as n ret hAlong hRun hPhase
  exact hStarving.failed hPhase

end Starving

/-- A call that is served perfectly succeeds unless it has several packets and no window. -/
theorem served_succeeds_iff (call : Call) (hAlign : 1 ≤ call.sock.align ∧ call.sock.align ≤ slmpPayloadSize) :
    Succeeds call ↔ 0 < call.sock.wndSz ∨ call.sz ≤ call.sock.payloadSize := by
  have hPos := call.sock.payloadSize_pos hAlign.1 hAlign.2
  constructor
  · intro hSucceeds
    by_contra hNot
    exact not_succeeds hPos (by omega) (by omega) hSucceeds
  · exact succeeds_of_mode hPos

theorem served_succeeds_fourPackets : Succeeds fourPackets :=
  (served_succeeds_iff fourPackets ⟨by decide, by decide⟩).mpr (.inl (by decide))

def unlimited : Call := ⟨⟨0, 500, 1, Nat.one_pos⟩, 7, List.replicate 1500 5⟩

def unlimitedRun : List (NetAction unlimited × List Packet) :=
  [(.syn true, []), (.synAck [ackPoll], [unlimited.firstPacket]), (.join, []), (.last [] true, []),
    (.drain [], [])]

/-- The last packet is not sent: the wait for a window returns at once,
since a window of zero is none to wait for. -/
theorem unlimited_fails :
    ¬ ∀ (call : Call), 1 ≤ call.sock.align ∧ call.sock.align ≤ slmpPayloadSize → Succeeds call := by
  intro hAll
  have hSucceeds := hAll unlimited ⟨by decide, by decide⟩
  have hEnd : (run netStep (NetState.init unlimited) unlimitedRun).map (fun n => n.sender.phase) =
      some (.returned (-1)) := by
    decide +kernel
  obtain ⟨n, hRun, hPhase⟩ := Option.map_eq_some_iff.mp hEnd
  have hServed : Along netStep Served (NetState.init unlimited) unlimitedRun := by decide +kernel
  obtain ⟨hRet, -⟩ := hSucceeds.success unlimitedRun n (-1) hServed hRun hPhase
  cases hRet

end FPsPIN.Slmp
