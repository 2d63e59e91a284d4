import FPsPIN.Slmp.Sender

/-!
# Waiting for acknowledgements

Functions drain_ack and drain_ack_timeout over what recvfrom and the clock
give them: a poll is the outcome of one recvfrom and whether the deadline had
passed after it. The receive buffer has the size of a header and recvfrom drops
what does not fit, so a longer datagram is taken for a header. An error or a
malformed reply makes the whole wait return -1, and the acknowledgements
received before it in the same wait are not counted.
-/

namespace FPsPIN.Slmp

open FPsPIN.Bytes

/-- Macro ACK. -/
def ack (flags : BitVec 16) : Bool := flags &&& mkAck != 0

/-- Size of slmp_hdr_t. -/
def slmpHdrSize : Nat := 10

/-- What recvfrom reports: EAGAIN, another error or a datagram. -/
inductive Recv where
  | again
  | error
  | datagram (bytes : List Byte)
deriving DecidableEq

/-- The flags in the header at the start of a datagram. -/
def headerFlags (bytes : List Byte) : BitVec 16 := bswap16 (loadLE 2 (fun k => bytes.getD k 0) 0)

/-- Function drain_ack with its counters; no datagram is there behind the end of the list. -/
def drainAckFrom : (toExpect : Nat) → (acked : Int) → List Recv → Int × List Recv
  | 0, acked, rs => (acked, rs)
  | _ + 1, acked, [] => (acked, [])
  | _ + 1, acked, .again :: rs => (acked, rs)
  | _ + 1, _, .error :: rs => (-1, rs)
  | n + 1, acked, .datagram bytes :: rs =>
    let rcvd := min bytes.length slmpHdrSize
    if rcvd ≠ slmpHdrSize then (-1, rs)
    else if ack (headerFlags bytes) then drainAckFrom n (acked + 1) rs
    else (-1, rs)

def drainAck (toExpect : Nat) (rs : List Recv) : Int × List Recv := drainAckFrom toExpect 0 rs

structure Poll where
  recv : Recv
  late : Bool
deriving DecidableEq

/-- The loop of drain_ack_timeout: the value returned and the polls it did not get to,
or none while it polls on. -/
def drainLoop (toExpect : Int) (needAll : Bool) : (acked : Int) → List Poll → Option (Int × List Poll)
  | acked, [] => if acked < toExpect then none else some (acked, [])
  | acked, poll :: polls =>
    if acked < toExpect then
      let v := (drainAck 1 [poll.recv]).1
      if v < 0 then some (v, polls)
      else if v = 0 ∧ acked ≠ 0 ∧ needAll = false then some (acked, polls)
      else if poll.late then some (acked + v, polls)
      else drainLoop toExpect needAll (acked + v) polls
    else some (acked, poll :: polls)

def drainAckTimeout (toExpect : Int) (needAll : Bool) (polls : List Poll) : Option (Int × List Poll) :=
  if toExpect = 0 then some (0, polls) else drainLoop toExpect needAll 0 polls

namespace Recv

def isAck : Recv → Bool
  | datagram bytes => decide (slmpHdrSize ≤ bytes.length) && ack (headerFlags bytes)
  | _ => false

def isBad (r : Recv) : Bool := !r.isAck && r != again

theorem drainAck_one (r : Recv) : (drainAck 1 [r]).1 = if r.isAck then 1 else if r.isBad then -1 else 0 := by
  cases r with
  | again => rfl
  | error => rfl
  | datagram bytes =>
    have hBad : (datagram bytes).isBad = !(datagram bytes).isAck := by simp [isBad]
    rw [hBad]
    change (if min bytes.length slmpHdrSize ≠ slmpHdrSize then ((-1 : Int), ([] : List Recv))
      else if ack (headerFlags bytes) then drainAckFrom 0 (0 + 1) [] else (-1, [])).1 = _
    by_cases hSize : slmpHdrSize ≤ bytes.length
    · cases hAck : ack (headerFlags bytes) <;> simp [isAck, hSize, hAck, drainAckFrom]
    · have hRcvd : min bytes.length slmpHdrSize ≠ slmpHdrSize := by omega
      simp [isAck, hSize, hRcvd]

end Recv

def acks (polls : List Poll) : Nat := polls.countP fun poll => poll.recv.isAck

@[simp] theorem acks_nil : acks [] = 0 := rfl

theorem acks_cons (poll : Poll) (polls : List Poll) :
    acks (poll :: polls) = acks polls + poll.recv.isAck.toNat := by
  rw [acks, List.countP_cons, ← acks]
  cases poll.recv.isAck <;> rfl

/-- What a wait returns: -1 after a bad reply, else the number of acknowledgements it received. -/
inductive Drained (toExpect acked : Int) (used : List Poll) : Int → Prop where
  | bad (hCount : acked + acks used < toExpect) (hBad : ∃ poll ∈ used, poll.recv.isBad = true) :
    Drained toExpect acked used (-1)
  | counted (hCount : acked + acks used ≤ toExpect ∨ used = []) : Drained toExpect acked used (acked + acks used)

theorem Drained.cons {toExpect acked v : Int} {poll : Poll} {used : List Poll}
    (h : Drained toExpect (acked + poll.recv.isAck.toNat) used v) (hLt : acked < toExpect) :
    Drained toExpect acked (poll :: used) v := by
  have hAcks : acked + (acks (poll :: used) : Int) = acked + poll.recv.isAck.toNat + acks used := by
    rw [acks_cons]
    omega
  cases h with
  | bad hCount hBad =>
    obtain ⟨bad, hMem, hBad⟩ := hBad
    exact .bad (by omega) ⟨bad, List.mem_cons_of_mem _ hMem, hBad⟩
  | counted hCount =>
    rw [← hAcks]
    refine .counted (.inl ?_)
    have hAck : (poll.recv.isAck.toNat : Int) ≤ 1 := by
      cases poll.recv.isAck <;> decide
    obtain hLe | rfl := hCount
    · omega
    · rw [acks_nil] at hAcks
      omega

theorem drained_nil (toExpect acked : Int) : Drained toExpect acked [] acked := by
  have h : Drained toExpect acked [] (acked + acks []) := .counted (.inr rfl)
  rwa [acks_nil, Int.natCast_zero, Int.add_zero] at h

theorem drained_one {toExpect acked : Int} (poll : Poll) (hLt : acked < toExpect) :
    Drained toExpect acked [poll] (acked + poll.recv.isAck.toNat) :=
  (drained_nil toExpect _).cons hLt

theorem Recv.drainAck_good {r : Recv} (hGood : r.isBad = false) : (drainAck 1 [r]).1 = r.isAck.toNat := by
  rw [drainAck_one, hGood]
  cases r.isAck <;> rfl

theorem drainLoop_spec {toExpect : Int} {needAll : Bool} {acked v : Int} {polls rest : List Poll}
    (h : drainLoop toExpect needAll acked polls = some (v, rest)) :
    ∃ used, polls = used ++ rest ∧ Drained toExpect acked used v := by
  induction polls generalizing acked with
  | nil =>
    rw [drainLoop] at h
    split at h <;> cases h
    exact ⟨[], rfl, drained_nil _ _⟩
  | cons poll polls ih =>
    rw [drainLoop] at h
    split at h
    case isFalse =>
      cases h
      exact ⟨[], rfl, drained_nil _ _⟩
    case isTrue hLt =>
      cases hBad : poll.recv.isBad with
      | true =>
        have hAck : poll.recv.isAck = false := by
          rw [Recv.isBad, Bool.and_eq_true, Bool.not_eq_true'] at hBad
          exact hBad.1
        simp only [Recv.drainAck_one, hAck, hBad] at h
        cases h
        exact ⟨[poll], rfl, .bad (by simp [acks_cons, hAck, hLt]) ⟨poll, List.mem_singleton_self _, hBad⟩⟩
      | false =>
        have hOne := drained_one poll hLt
        simp only [Recv.drainAck_good hBad] at h
        split_ifs at h with hNeg hBreak hLate
        · omega
        · cases h
          rw [hBreak.1, Int.add_zero] at hOne
          exact ⟨[poll], rfl, hOne⟩
        · cases h
          exact ⟨[poll], rfl, hOne⟩
        · obtain ⟨used, rfl, hDrained⟩ := ih h
          exact ⟨poll :: used, rfl, hDrained.cons hLt⟩

theorem drainAckTimeout_spec {toExpect : Int} {needAll : Bool} {v : Int} {polls rest : List Poll}
    (h : drainAckTimeout toExpect needAll polls = some (v, rest)) :
    ∃ used, polls = used ++ rest ∧ Drained toExpect 0 used v := by
  rw [drainAckTimeout] at h
  split at h
  · cases h
    exact ⟨[], rfl, drained_nil _ _⟩
  · exact drainLoop_spec h

namespace Drained

variable {toExpect v : Int} {used : List Poll}

/-- The values that the model of the sender allows. -/
theorem drainable (h : Drained toExpect 0 used v) : drainable toExpect v = true := by
  unfold Slmp.drainable
  cases h with
  | bad hCount _ =>
    have hPos : ¬ toExpect ≤ 0 := by omega
    simp [hPos]
    omega
  | counted hCount =>
    split
    · obtain hLe | rfl := hCount
      · simp
        omega
      · rfl
    · obtain hLe | rfl := hCount
      · simp only [Bool.and_eq_true, decide_eq_true_eq]
        omega
      · simp
        omega

theorem eq_acks (h : Drained toExpect 0 used v) (hGood : ∀ poll ∈ used, poll.recv.isBad = false) :
    v = acks used := by
  cases h with
  | bad _ hBad =>
    obtain ⟨poll, hMem, hBad⟩ := hBad
    exact absurd (hBad.symm.trans (hGood poll hMem)) (by decide)
  | counted _ => exact Int.zero_add _

end Drained

section Replies

def ackBytes : List Byte := [0x20, 0, 0, 0, 0, 0, 0, 0, 0, 0]

def ackPoll : Poll := ⟨.datagram ackBytes, false⟩

def latePoll : Poll := ⟨.again, true⟩

theorem isAck_ackPoll : ackPoll.recv.isAck = true := by decide

theorem drainLoop_acks (toExpect : Int) (needAll : Bool) (polls : List Poll) {acked : Int} {n : Nat}
    (h : acked + n ≤ toExpect) :
    drainLoop toExpect needAll acked (List.replicate n ackPoll ++ polls) =
      drainLoop toExpect needAll (acked + n) polls := by
  induction n generalizing acked with
  | zero => simp
  | succ n ih =>
    have hLt : acked < toExpect := by omega
    have hValue : (drainAck 1 [ackPoll.recv]).1 = 1 := rfl
    have hNext : acked + ((n + 1 : Nat) : Int) = acked + 1 + n := by omega
    rw [List.replicate_succ, List.cons_append, drainLoop, if_pos hLt, hNext]
    simp only [hValue]
    exact ih (by omega)

/-- Acknowledgements up to the expected number, and then none until the deadline. -/
theorem drainAckTimeout_replies {toExpect : Int} (needAll : Bool) {n : Nat} (hPos : 0 < toExpect)
    (h : (n : Int) ≤ toExpect) :
    ∃ polls, drainAckTimeout toExpect needAll polls = some ((n : Int), []) ∧ acks polls = n ∧
      ∀ poll ∈ polls, poll.recv.isBad = false := by
  have hAcks : acks (List.replicate n ackPoll) = n := by
    rw [acks, List.countP_replicate, if_pos isAck_ackPoll]
  have hNe : toExpect ≠ 0 := by omega
  have hLoop (polls : List Poll) : drainLoop toExpect needAll 0 (List.replicate n ackPoll ++ polls) =
      drainLoop toExpect needAll n polls := by
    rw [drainLoop_acks toExpect needAll polls (by omega), Int.zero_add]
  by_cases hAll : (n : Int) = toExpect
  · refine ⟨List.replicate n ackPoll, ?_, hAcks, ?_⟩
    · have hEnd := hLoop []
      rw [List.append_nil] at hEnd
      rw [drainAckTimeout, if_neg hNe, hEnd, drainLoop, if_neg (by omega)]
    · intro poll hMem
      rw [List.eq_of_mem_replicate hMem]
      rfl
  · refine ⟨List.replicate n ackPoll ++ [latePoll], ?_, ?_, ?_⟩
    · have hValue : (drainAck 1 [latePoll.recv]).1 = 0 := rfl
      have hLate : latePoll.late = true := rfl
      rw [drainAckTimeout, if_neg hNe, hLoop, drainLoop, if_pos (by omega)]
      simp [hValue, hLate]
    · rw [acks, List.countP_append, ← acks, ← acks, hAcks]
      rfl
    · intro poll hMem
      rw [List.mem_append, List.mem_singleton] at hMem
      obtain hAck | rfl := hMem
      · rw [List.eq_of_mem_replicate hAck]
        rfl
      · rfl

end Replies

end FPsPIN.Slmp
