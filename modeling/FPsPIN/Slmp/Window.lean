import FPsPIN.Slmp.Network

/-!
# The window of a message

What the windows of the threads and the packets without acknowledgement add up
to is constant, since a thread that reads another's acknowledgement gains what
the other one loses. The account breaks with the value -1 of a wait: the caller
tests it against zero only, so a malformed reply to the first packet passes for
its acknowledgement, and to a thread that is out of window it gives a window of
-1 that counts down and never runs out.
-/

namespace FPsPIN.Slmp

open FPsPIN.Trace

variable {call : Call}

/-- Packets after the first one that are sent and not acknowledged. -/
def NetState.unacked (n : NetState call) : List Packet := n.sender.sent.tail.diff (n.acked.erase call.firstPacket)

structure WindowDiscipline (n : NetState call) : Prop where
  first : 2 ≤ n.sender.sent.length → n.acked.head? = some call.firstPacket
  /-- For every multiple of the thread count from the window size on, hence for the smallest. -/
  window : ∀ m, call.sock.numThreads ∣ m → call.sock.wndSz ≤ m → n.unacked.length ≤ m
  returned : n.sender.phase = .returned 0 → n.acked.Perm n.sender.sent

/-- No receive error and no malformed reply, except in the final drain. -/
def goodReplies : NetAction call → Bool
  | .drain _ => true
  | a => a.polls.all fun poll => !poll.recv.isBad

theorem windowTotal_le (sock : Sock) {m : Nat} (hDvd : sock.numThreads ∣ m) (hLe : sock.wndSz ≤ m) :
    sock.windowTotal ≤ m := by
  obtain ⟨k, rfl⟩ := hDvd
  have hPos := sock.numThreads_pos
  have hLimit : sock.windowThreadLimit ≤ k := by
    rw [Sock.windowThreadLimit, ← Nat.lt_succ_iff, Nat.div_lt_iff_lt_mul hPos, Nat.succ_mul, Nat.mul_comm k]
    omega
  calc sock.windowTotal ≤ k * sock.numThreads := Nat.mul_le_mul_right _ hLimit
    _ = sock.numThreads * k := Nat.mul_comm _ _

theorem windowTotal_pos (sock : Sock) (hWnd : 0 < sock.wndSz) : 0 < sock.windowTotal := by
  have hPos := sock.numThreads_pos
  exact Nat.mul_pos (Nat.div_pos (by omega) hPos) hPos

section Accounts

variable {n n' : NetState call}

/-- The first packet is acknowledged, and a window is what the packets without acknowledgement leave;
without a limit it is below zero. -/
structure Balanced (n : NetState call) (window : Int) : Prop where
  nonneg : 0 < call.sock.wndSz → 0 ≤ window
  account : window + n.sender.sent.length = call.sock.windowTotal + n.acked.length
  sentFirst : n.sender.sent.head? = some call.firstPacket
  ackedFirst : n.acked.head? = some call.firstPacket

/-- What is left of the account when the windows are gone. -/
structure Bounded (n : NetState call) : Prop where
  account : 0 < call.sock.wndSz → n.sender.sent.length ≤ call.sock.windowTotal + n.acked.length
  sentFirst : n.sender.sent ≠ [] → n.sender.sent.head? = some call.firstPacket
  ackedFirst : 2 ≤ n.sender.sent.length → n.acked.head? = some call.firstPacket

namespace Balanced

variable {window : Int}

theorem bounded (h : Balanced n window) : Bounded n where
  account hWnd := by
    have hAccount := h.account
    have hNonneg := h.nonneg hWnd
    omega
  sentFirst _ := h.sentFirst
  ackedFirst _ := h.ackedFirst

theorem advance (h : Balanced n window) {out acked : List Packet} (hSent : n'.sender.sent = n.sender.sent ++ out)
    (hAcked : n'.acked = n.acked ++ acked) {window' : Int}
    (hNonneg : 0 < call.sock.wndSz → 0 ≤ window') (hWindow : window' + out.length = window + acked.length) :
    Balanced n' window' where
  nonneg := hNonneg
  account := by
    have hAccount := h.account
    rw [hSent, hAcked, List.length_append, List.length_append]
    omega
  sentFirst := by rw [hSent, List.head?_append, h.sentFirst, Option.some_or]
  ackedFirst := by rw [hAcked, List.head?_append, h.ackedFirst, Option.some_or]

theorem refl (h : Balanced n window) (hSent : n'.sender.sent = n.sender.sent) (hAcked : n'.acked = n.acked) :
    Balanced n' window :=
  h.advance (hSent.trans (List.append_nil _).symm) (hAcked.trans (List.append_nil _).symm) h.nonneg rfl

end Balanced

/-- The accounts of each phase. -/
def AccountsIn (n : NetState call) : Phase → Prop
  | .syn => n.sender.sent = [] ∧ n.acked = [] ∧ ∀ t, (n.sender.thread t).window = call.sock.windowThreadLimit
  | .synAck =>
    n.sender.sent = [call.firstPacket] ∧ n.acked = [] ∧
      ∀ t, (n.sender.thread t).window = call.sock.windowThreadLimit
  | .loop =>
    (0 < call.sock.wndSz → ∀ t, 0 ≤ (n.sender.thread t).window ∧
      (n.sender.thread t).window ≤ call.sock.windowThreadLimit) ∧ Balanced n n.sender.windowSum
  | .last => Balanced n n.sender.windowLeft
  | .drain _ => Balanced n n.sender.windowLeft
  | .returned ret => Bounded n ∧ (ret = 0 → n.acked.length = n.sender.sent.length)

structure Accounts (n : NetState call) : Prop where
  subperm : n.acked.Subperm n.sender.sent
  phase : AccountsIn n n.sender.phase

theorem Accounts.of_phase (h : Accounts n) {phase : Phase} (hPhase : n.sender.phase = phase) :
    AccountsIn n phase :=
  hPhase ▸ h.phase

theorem windowSum_limit {s : State call} (h : ∀ t, (s.thread t).window = call.sock.windowThreadLimit) :
    s.windowSum = call.sock.windowTotal := by
  simp only [State.windowSum, h, Finset.sum_const, Finset.card_univ, Fintype.card_fin, nsmul_eq_mul,
    Sock.windowTotal, Nat.cast_mul]
  exact Int.mul_comm _ _

theorem sum_window_update {k : Nat} (thread : Fin k → Thread) (t : Fin k) (th : Thread) :
    ∑ u, (Function.update thread t th u).window + (thread t).window = ∑ u, (thread u).window + th.window := by
  have hUpdate : (fun u => (Function.update thread t th u).window) =
      Function.update (fun u => (thread u).window) t th.window := by
    funext u
    exact Function.apply_update (fun _ th => th.window) thread t th u
  rw [hUpdate, Finset.sum_update_of_mem (Finset.mem_univ t), Finset.sdiff_singleton_eq_erase,
    ← Finset.add_sum_erase _ (fun u => (thread u).window) (Finset.mem_univ t)]
  omega

theorem Bounded.of_short (hSent : n.sender.sent = [] ∨ n.sender.sent = [call.firstPacket]) : Bounded n := by
  obtain hSent | hSent := hSent
  · constructor <;> simp [hSent]
  · refine ⟨fun hWnd => ?_, ?_, ?_⟩
    · have hPos := windowTotal_pos call.sock hWnd
      rw [hSent, List.length_singleton]
      omega
    · simp [hSent]
    · simp [hSent]

theorem Accounts.bounded (h : Accounts n) : Bounded n := by
  have hPhase := h.phase
  cases hIs : n.sender.phase <;> rw [hIs] at hPhase
  case syn => exact .of_short (.inl hPhase.1)
  case synAck => exact .of_short (.inr hPhase.1)
  case loop => exact hPhase.2.bounded
  case last => exact Balanced.bounded hPhase
  case drain => exact Balanced.bounded hPhase
  case returned => exact hPhase.1

/-- The discipline is what the accounts say. -/
theorem Accounts.discipline (h : Accounts n) (hWnd : 0 < call.sock.wndSz) : WindowDiscipline n := by
  have hBounded := h.bounded
  refine ⟨hBounded.ackedFirst, ?_, ?_⟩
  · intro m hDvd hLe
    have hTotal := windowTotal_le call.sock hDvd hLe
    cases hSent : n.sender.sent with
    | nil => simp [NetState.unacked, hSent]
    | cons pkt sent =>
      have hFirst := hBounded.sentFirst (by simp [hSent])
      have hAccount := hBounded.account hWnd
      rw [hSent] at hFirst hAccount
      cases hFirst
      rcases Nat.lt_or_ge sent.length 1 with hOne | hMore
      · have hNil : sent = [] := List.eq_nil_of_length_eq_zero (by omega)
        simp [NetState.unacked, hSent, hNil]
      · have hAcked := hBounded.ackedFirst (by simp [hSent, hMore])
        obtain ⟨acked, hAcked⟩ : ∃ acked, n.acked = call.firstPacket :: acked := by
          cases hList : n.acked with
          | nil => simp [hList] at hAcked
          | cons pkt acked =>
            rw [hList] at hAcked
            cases hAcked
            exact ⟨acked, rfl⟩
        have hSub := h.subperm
        rw [hAcked, hSent, List.subperm_cons] at hSub
        have hLength := (List.subperm_append_diff_self_of_count_le (List.subperm_ext_iff.mp hSub)).length_eq
        rw [List.length_append] at hLength
        rw [hAcked, List.length_cons, List.length_cons] at hAccount
        simp only [NetState.unacked, hSent, hAcked, List.erase_cons_head, List.tail_cons]
        omega
  · intro hPhase
    have hLength := (h.of_phase hPhase).2 rfl
    exact h.subperm.perm_of_length_le (Nat.le_of_eq hLength.symm)

end Accounts

section Steps

variable {n n' : NetState call} {received : List Packet} {polls : List Poll}

theorem step_sent {s s' : State call} {a : Action call} (hStep : step s a = some s') :
    ∃ out, s'.sent = s.sent ++ out := by
  cases step_cases hStep with
  | syn sendto _ => exact ⟨_, rfl⟩
  | send t cur reclaimed sendto _ _ _ => exact ⟨_, rfl⟩
  | last reclaimed sendto _ _ =>
    unfold State.sendLast
    split
    · exact ⟨_, rfl⟩
    · exact ⟨[], (List.append_nil _).symm⟩
  | _ => exact ⟨[], (List.append_nil _).symm⟩

theorem accounts_sendSyn (h : AccountsIn n .syn) (sendto : Bool) :
    AccountsIn ⟨n.sender.sendSyn sendto, n.acked⟩ (n.sender.sendSyn sendto).phase := by
  obtain ⟨hSent, hAcked, hWindow⟩ := h
  cases sendto with
  | true =>
    refine ⟨?_, hAcked, hWindow⟩
    change n.sender.sent ++ [call.firstPacket] = _
    rw [hSent]
    rfl
  | false =>
    refine ⟨.of_short (.inl ?_), fun hRet => absurd hRet (by decide)⟩
    change n.sender.sent ++ [] = _
    rw [hSent]
    rfl

theorem accounts_synAck (h : AccountsIn n .synAck) {v : Int}
    (hWait : waited 1 true polls = some v) (hGood : ∀ poll ∈ polls, poll.recv.isBad = false)
    (hLength : received.length = acks polls) (hSub : (n.acked ++ received).Subperm n.sender.sent)
    {s' : State call}
    (hSender : s' = { n.sender with phase := if v = 0 then .returned (-2) else .loop }) :
    AccountsIn ⟨s', n.acked ++ received⟩ s'.phase := by
  obtain ⟨hSent, hAcked, hWindow⟩ := h
  obtain ⟨hValue, hLe⟩ := waited_good hWait hGood (by decide)
  by_cases hZero : v = 0
  · rw [if_pos hZero] at hSender
    subst hSender
    exact ⟨.of_short (.inr hSent), fun hRet => absurd hRet (by decide)⟩
  · rw [if_neg hZero] at hSender
    subst hSender
    have hOne : received.length = 1 := by omega
    obtain ⟨pkt, rfl⟩ := List.length_eq_one_iff.mp hOne
    rw [hAcked, hSent, List.nil_append] at hSub
    have hFirst : pkt = call.firstPacket := by simpa using hSub.subset (List.mem_singleton_self pkt)
    refine ⟨fun _ t => ?_, ?_⟩
    · have hLimit := hWindow t
      change 0 ≤ (n.sender.thread t).window ∧ (n.sender.thread t).window ≤ _
      omega
    · have hSum := windowSum_limit hWindow
      change Balanced _ n.sender.windowSum
      rw [hSum]
      constructor <;> simp [hSent, hAcked, hFirst]

theorem window_enter (s : State call) (t : Fin call.sock.numThreads) (cur : Nat) :
    ∀ u, ((s.enter t cur).thread u).window = (s.thread u).window := by
  intro u
  unfold State.enter
  cases s.exitFlag with
  | true => rfl
  | false =>
    change (Function.update s.thread t { s.thread t with cur := some cur } u).window = _
    rcases eq_or_ne u t with rfl | hNe
    · rw [Function.update_self]
    · rw [Function.update_of_ne hNe]

theorem accounts_enter (h : AccountsIn n .loop) (t : Fin call.sock.numThreads) (cur : Nat) :
    AccountsIn ⟨n.sender.enter t cur, n.acked⟩ .loop := by
  obtain ⟨hWindows, hBalanced⟩ := h
  have hThread := window_enter n.sender t cur
  refine ⟨fun hWnd u => ?_, ?_⟩
  · rw [hThread]
    exact hWindows hWnd u
  · have hSum : (n.sender.enter t cur).windowSum = n.sender.windowSum := Finset.sum_congr rfl fun u _ => hThread u
    rw [hSum]
    exact hBalanced.refl rfl rfl

theorem accounts_sendLoop (h : AccountsIn n .loop) (t : Fin call.sock.numThreads) (cur : Nat)
    {reclaimed : List Int} (sendto : Bool)
    (hReclaims : reclaims (call.loopExpectAck cur) (n.sender.thread t).window call.sock.windowThreadLimit polls =
      some reclaimed)
    (hGood : ∀ poll ∈ polls, poll.recv.isBad = false) (hLength : received.length = acks polls) :
    AccountsIn ⟨n.sender.sendLoop t cur reclaimed sendto, n.acked ++ received⟩ .loop := by
  obtain ⟨hWindows, hBalanced⟩ := h
  have hNext : 0 < call.sock.wndSz → ∀ u, 0 ≤ ((n.sender.sendLoop t cur reclaimed sendto).thread u).window ∧
      ((n.sender.sendLoop t cur reclaimed sendto).thread u).window ≤ call.sock.windowThreadLimit := by
    intro hWnd u
    have hExpect : call.loopExpectAck cur = true := by simp [Call.loopExpectAck, Sock.ackForAll, hWnd]
    rw [hExpect] at hReclaims
    simp only [State.sendLoop, hExpect]
    rcases eq_or_ne u t with rfl | hNe
    · obtain ⟨hLow, hHigh⟩ := sendSingle_bounds (call.loopPacket cur) sendto hReclaims hGood
        (Int.natCast_nonneg _) (hWindows hWnd u).1
      rw [Function.update_self]
      exact ⟨hLow, hHigh (hWindows hWnd u).2⟩
    · rw [Function.update_of_ne hNe]
      exact hWindows hWnd u
  refine ⟨hNext, hBalanced.advance rfl rfl (fun hWnd => Finset.sum_nonneg fun u _ => (hNext hWnd u).1) ?_⟩
  have hSum := sendSingle_account (call.loopPacket cur) sendto hReclaims hGood (Int.natCast_nonneg _)
  have hUpdate := sum_window_update n.sender.thread t
    ⟨none, (sendSingle (call.loopPacket cur) (call.loopExpectAck cur) (n.sender.thread t).window reclaimed
        sendto).window,
      (sendSingle (call.loopPacket cur) (call.loopExpectAck cur) (n.sender.thread t).window reclaimed sendto).ret⟩
  simp only [State.sendLoop, State.windowSum] at hUpdate ⊢
  omega

theorem accounts_join (h : AccountsIn n .loop) : AccountsIn ⟨n.sender.join, n.acked⟩ n.sender.join.phase := by
  obtain ⟨-, hBalanced⟩ := h
  have hJoined : Balanced ⟨n.sender.join, n.acked⟩ n.sender.windowSum := hBalanced.refl rfl rfl
  by_cases hRet : n.sender.retSum = 0
  · have hPhase : n.sender.join.phase = .last := if_pos hRet
    rw [hPhase]
    exact hJoined
  · have hPhase : n.sender.join.phase = .returned (-1) := if_neg hRet
    rw [hPhase]
    exact ⟨hJoined.bounded, fun hRet => absurd hRet (by decide)⟩

theorem accounts_sendLast (h : AccountsIn n .last) {reclaimed : List Int} (sendto : Bool)
    (hReclaims : reclaims (decide (call.curAfter < call.sz)) n.sender.windowLeft call.sock.windowTotal polls =
      some reclaimed)
    (hGood : ∀ poll ∈ polls, poll.recv.isBad = false) (hLength : received.length = acks polls) :
    AccountsIn ⟨n.sender.sendLast reclaimed sendto, n.acked ++ received⟩
      (n.sender.sendLast reclaimed sendto).phase := by
  have hBalanced : Balanced n n.sender.windowLeft := h
  unfold State.sendLast
  by_cases hLast : call.curAfter < call.sz
  · rw [decide_eq_true hLast] at hReclaims
    have hSum := sendSingle_account call.lastPacket sendto hReclaims hGood (Int.natCast_nonneg _)
    rw [← hLength] at hSum
    rw [if_pos hLast]
    refine hBalanced.advance rfl rfl (fun hWnd => ?_) hSum
    exact (sendSingle_bounds call.lastPacket sendto hReclaims hGood (Int.natCast_nonneg _)
      (hBalanced.nonneg hWnd)).1
  · rw [decide_eq_false hLast, reclaims] at hReclaims
    obtain ⟨hNil, -⟩ : polls = [] ∧ reclaimed = [] := by simpa using hReclaims
    have hNone : received = [] := List.eq_nil_of_length_eq_zero (by rw [hLength, hNil, acks_nil])
    rw [if_neg hLast]
    exact hBalanced.refl rfl (by rw [hNone, List.append_nil])

theorem accounts_drain {ret drained : Int} (h : AccountsIn n (.drain ret))
    (hWait : waited n.sender.toDrain true polls = some drained) (hLength : received.length = acks polls)
    (hSub : (n.acked ++ received).Subperm n.sender.sent) {s' : State call}
    (hSender : s' = { n.sender with phase := .returned (if drained < n.sender.toDrain then -1 else ret) }) :
    AccountsIn ⟨s', n.acked ++ received⟩ s'.phase := by
  have hBalanced : Balanced n n.sender.windowLeft := h
  have hAccount := hBalanced.account
  have hCount := hSub.length_le
  rw [List.length_append] at hCount
  subst hSender
  refine ⟨?_, ?_⟩
  · have hBounded := hBalanced.bounded
    refine ⟨?_, hBounded.sentFirst, fun _ => ?_⟩
    · intro hWnd
      have hLe := hBounded.account hWnd
      change n.sender.sent.length ≤ call.sock.windowTotal + (n.acked ++ received).length
      rw [List.length_append]
      omega
    · rw [List.head?_append, hBalanced.ackedFirst, Option.some_or]
  · intro hRet
    have hEnough : ¬ drained < n.sender.toDrain := by
      intro hLt
      rw [if_pos hLt] at hRet
      exact absurd hRet (by decide)
    unfold State.toDrain at hEnough hWait
    have hDrained := waited_spec hWait
    change (n.acked ++ received).length = n.sender.sent.length
    rw [List.length_append]
    cases hDrained with
    | bad _ _ => omega
    | counted _ => omega

theorem accounts_init (call : Call) : Accounts (NetState.init call) :=
  ⟨List.nil_subperm, rfl, rfl, fun _ => rfl⟩

theorem accounts_step (h : Accounts n) {a : NetAction call × List Packet} (hGood : goodReplies a.1 = true)
    (hNet : netStep n a = some n') : Accounts n' := by
  obtain ⟨act, s', hCases, hStep, hSub, rfl⟩ := netStep_cases hNet
  refine ⟨?_, ?_⟩
  · obtain ⟨out, hSent⟩ := step_sent hStep
    rw [hSent]
    exact hSub.trans (List.sublist_append_left _ _).subperm
  have hReplies : (∀ polls, a.1 ≠ .drain polls) → ∀ poll ∈ a.1.polls, poll.recv.isBad = false := by
    intro hWait
    unfold goodReplies at hGood
    split at hGood
    · exact absurd ‹_› (hWait _)
    · simpa using hGood
  cases hCases with
  | syn hPhase hNext =>
    subst hNext
    rw [List.append_nil]
    exact accounts_sendSyn (h.of_phase hPhase) _
  | synAck hPhase hWait hLength hNext =>
    exact accounts_synAck (h.of_phase hPhase) hWait (hReplies nofun) hLength hSub hNext
  | @enter t cur hPhase hNext =>
    subst hNext
    have hLoop := accounts_enter (h.of_phase hPhase) t cur
    rw [List.append_nil]
    rwa [← hPhase] at hLoop
  | @send t cur _ _ _ sendto hPhase _ hReclaims hLength hNext =>
    subst hNext
    have hLoop := accounts_sendLoop (h.of_phase hPhase) t cur sendto hReclaims (hReplies nofun) hLength
    rwa [← hPhase] at hLoop
  | join hPhase hNext =>
    subst hNext
    rw [List.append_nil]
    exact accounts_join (h.of_phase hPhase)
  | last hPhase hReclaims hLength hNext =>
    subst hNext
    exact accounts_sendLast (h.of_phase hPhase) _ hReclaims (hReplies nofun) hLength
  | drain hPhase hWait hLength hNext => exact accounts_drain (h.of_phase hPhase) hWait hLength hSub hNext

end Steps

/-- A call of a window above zero keeps the window discipline while no wait but the last meets a bad reply. -/
theorem window_discipline (call : Call) (hWnd : 0 < call.sock.wndSz) {as : List (NetAction call × List Packet)}
    {n : NetState call} (hGood : Along netStep (fun _ a => goodReplies a.1 = true) (NetState.init call) as)
    (hRun : run netStep (NetState.init call) as = some n) : WindowDiscipline n :=
  (along_invariant Accounts (fun _ _ _ h hGood hStep => accounts_step h hGood hStep) (accounts_init call)
    hGood hRun).discipline hWnd

def windowOfOne : Call := ⟨⟨1, 500, 1, Nat.one_pos⟩, 7, List.replicate 2500 5⟩

def onlyThread : Fin windowOfOne.sock.numThreads := ⟨0, Nat.one_pos⟩

/-- The message with the polls of its first wait; all later packets are acknowledged. -/
def windowOfOneRun (polls : List Poll) (acked : List Packet) : List (NetAction windowOfOne × List Packet) :=
  [(.syn true, []), (.synAck polls, acked), (.enter onlyThread 1000, []), (.send onlyThread [] true, []),
    (.join, []),
    (.last [ackPoll] true, [windowOfOne.loopPacket 1000]), (.drain [ackPoll], [windowOfOne.lastPacket])]

theorem window_discipline_windowOfOne :
    ∃ n : NetState windowOfOne,
      run netStep (NetState.init windowOfOne) (windowOfOneRun [ackPoll] [windowOfOne.firstPacket]) = some n ∧
      n.sender.phase = .returned 0 ∧ WindowDiscipline n := by
  have hEnd : (run netStep (NetState.init windowOfOne) (windowOfOneRun [ackPoll] [windowOfOne.firstPacket])).map
      (fun n => n.sender.phase) = some (.returned 0) := by
    decide +kernel
  obtain ⟨n, hRun, hPhase⟩ := Option.map_eq_some_iff.mp hEnd
  exact ⟨n, hRun, hPhase, window_discipline windowOfOne (by decide) (by decide +kernel) hRun⟩

/-- The first packet is answered by a datagram of one byte and is never acknowledged; the call returns 0. -/
theorem malformedReply_passes :
    ¬ ∀ (call : Call), 0 < call.sock.wndSz → ∀ (as : List (NetAction call × List Packet)) (n : NetState call),
      run netStep (NetState.init call) as = some n → WindowDiscipline n := by
  intro hAll
  have hEnd : (run netStep (NetState.init windowOfOne) (windowOfOneRun [⟨.datagram [0], false⟩] [])).map
      (fun n => (n.sender.phase, n.sender.sent.length, n.acked.length)) = some (.returned 0, 3, 2) := by
    decide +kernel
  obtain ⟨n, hRun, hFields⟩ := Option.map_eq_some_iff.mp hEnd
  obtain ⟨hPhase, hLengths⟩ := Prod.mk.inj hFields
  obtain ⟨hSent, hAcked⟩ := Prod.mk.inj hLengths
  have hPerm := (hAll windowOfOne (by decide) _ n hRun).returned hPhase
  have hLength := hPerm.length_eq
  rw [hSent, hAcked] at hLength
  cases hLength

end FPsPIN.Slmp
