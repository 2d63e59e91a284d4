import FPsPIN.HostDirect.Transfers
import FPsPIN.Lib.Matching

/-!
# Responses of the host

The host answers the writes and the reads each in order. A response pops the
id of its command, so each command has one response if the host answers no
transfer that it has not seen. The address and the data of a write go out on
channels of their own, and the host has seen the write when it has both.
-/

namespace FPsPIN.HostDirect

open CmdDescr CommonCells Config Events Run

variable (p : Params) {numCmds : Nat}

def isWrite (cmd : PspinCmd numCmds) : Bool := (hostDirectCmd cmd.words).nicToHost

section Cycle

variable (s : State numCmds) (i : Input numCmds)

def accepts : Option (PspinCmd numCmds) := if i.cmdReqValid && cmdReqReady p s i then some i.cmdReq else none

def awSends : Option HostAddr := if i.awReady && awValid s then s.aw.head? else none

def arSends : Option HostAddr := if i.arReady && arValid s then s.ar.head? else none

def wSends : Option WDescr := if i.wReady && wValid s then s.w.head? else none

def idQueue (write : Bool) : List (PspinCmdId numCmds) := if write then s.writeId else s.readId

def responds (write : Bool) : Bool := if write then bReady i && i.bValid else rReady i && i.rValid

def completes (write : Bool) : Option Unit := if responds i write then some () else none

def pops (write : Bool) : Option (PspinCmdId numCmds) :=
  if responds i write then (idQueue s write).head? else none

def answers : Option (PspinCmdId numCmds) := if cmdRespValid i then cmdRespId s i else none

def push (write : Bool) : Bool := if write then writePush p s i else readPush p s i

theorem push_eq {Word : Type} (write : Bool) (f : PspinCmd numCmds → Word) :
    (if push p s i write then some (f i.cmdReq) else none) =
      ((accepts p s i).filter fun cmd => isWrite cmd = write).map f := by
  have hDir : isWrite i.cmdReq = (descr i).nicToHost := rfl
  rw [push, accepts, writePush, readPush]
  cases i.cmdReqValid && cmdReqReady p s i with
  | false => cases write <;> rfl
  | true => cases write <;> cases hNic : (descr i).nicToHost <;> simp [Option.filter, hDir, hNic]

theorem awSends_step : (awSends s i).toList ++ (step p s i).aw =
    s.aw ++ (((accepts p s i).filter fun cmd => isWrite cmd = true).map fun cmd =>
      (hostDirectCmd cmd.words).hostAddr).toList := by
  rw [← push_eq]
  exact head_append_fifoV3Step fun hPush => (room_of_writePush p s i hPush).1

theorem wSends_step : (wSends s i).toList ++ (step p s i).w =
    s.w ++ (((accepts p s i).filter fun cmd => isWrite cmd = true).map fun cmd =>
      wDescrOf (hostDirectCmd cmd.words)).toList := by
  rw [← push_eq]
  exact head_append_fifoV3Step fun hPush => (room_of_writePush p s i hPush).2.1

theorem arSends_step : (arSends s i).toList ++ (step p s i).ar =
    s.ar ++ (((accepts p s i).filter fun cmd => isWrite cmd = false).map fun cmd =>
      (hostDirectCmd cmd.words).hostAddr).toList := by
  rw [← push_eq]
  exact head_append_fifoV3Step fun hPush => (room_of_readPush p s i hPush).1

theorem idQueue_step (write : Bool) : (pops s i write).toList ++ idQueue (step p s i) write =
    idQueue s write ++ (((accepts p s i).filter fun cmd => isWrite cmd = write).map fun cmd =>
      cmd.cmdId).toList := by
  rw [← push_eq]
  cases write with
  | true => exact head_append_fifoV3Step fun hPush => (room_of_writePush p s i hPush).2.2
  | false => exact head_append_fifoV3Step fun hPush => (room_of_readPush p s i hPush).2

variable {s i}

theorem responds_unique {write write' : Bool} (h : responds i write = true) (h' : responds i write' = true) :
    write = write' := by
  cases write <;> cases write' <;> simp_all [responds, rReady, bReady]

theorem answers_eq_some {id : PspinCmdId numCmds} :
    answers s i = some id ↔ ∃ write, pops s i write = some id := by
  rw [Bool.exists_bool]
  cases hR : i.rValid <;> cases hB : i.bValid <;>
    simp [answers, pops, responds, idQueue, cmdRespValid, cmdRespId, rReady, bReady, hR, hB]

theorem responds_of_pops {write : Bool} (h : pops s i write ≠ none) : responds i write = true := by
  by_contra hNot
  exact h (if_neg hNot)

theorem responds_iff {write : Bool} : responds i write = true ↔ completes i write ≠ none := by
  rw [completes]
  cases responds i write <;> simp

end Cycle

section Runs

variable (inputs : Nat → Input numCmds)

def accepted (t : Nat) : Option (PspinCmd numCmds) := accepts p (runAt p inputs t) (inputs t)

def awSent (t : Nat) : Option HostAddr := awSends (runAt p inputs t) (inputs t)

def arSent (t : Nat) : Option HostAddr := arSends (runAt p inputs t) (inputs t)

def wSent (t : Nat) : Option WDescr := wSends (runAt p inputs t) (inputs t)

def sent (write : Bool) : Nat → Option HostAddr := if write then awSent p inputs else arSent p inputs

def completed (write : Bool) (t : Nat) : Option Unit := completes (inputs t) write

def popped (write : Bool) (t : Nat) : Option (PspinCmdId numCmds) := pops (runAt p inputs t) (inputs t) write

def answered (t : Nat) : Option (PspinCmdId numCmds) := answers (runAt p inputs t) (inputs t)

theorem matching_awSent :
    Follows (channel isWrite (accepted p inputs) true) (awSent p inputs)
      (fun cmd addr => addr = (hostDirectCmd cmd.words).hostAddr) :=
  matching_of_queue _ (fun t => (runAt p inputs t).aw) rfl fun t => awSends_step p (runAt p inputs t) (inputs t)

theorem matching_wSent :
    Follows (channel isWrite (accepted p inputs) true) (wSent p inputs)
      (fun cmd beat => beat = wDescrOf (hostDirectCmd cmd.words)) :=
  matching_of_queue _ (fun t => (runAt p inputs t).w) rfl fun t => wSends_step p (runAt p inputs t) (inputs t)

theorem matching_arSent :
    Follows (channel isWrite (accepted p inputs) false) (arSent p inputs)
      (fun cmd addr => addr = (hostDirectCmd cmd.words).hostAddr) :=
  matching_of_queue _ (fun t => (runAt p inputs t).ar) rfl fun t => arSends_step p (runAt p inputs t) (inputs t)

theorem matching_popped (write : Bool) :
    Follows (channel isWrite (accepted p inputs) write) (popped p inputs write) (fun cmd id => id = cmd.cmdId) :=
  matching_of_queue _ (fun t => idQueue (runAt p inputs t) write) (by cases write <;> rfl)
    fun t => idQueue_step p (runAt p inputs t) (inputs t) write

theorem matching_answered :
    Matching (accepted p inputs) (answered p inputs) (fun cmd id => id = cmd.cmdId)
      (fun y v => ∃ write, InOrder (channel isWrite (accepted p inputs) write) (popped p inputs write) y v) :=
  Matching.channels (matching_popped p inputs) (fun _ _ => answers_eq_some)
    fun _ _ _ h h' => responds_unique (responds_of_pops h) (responds_of_pops h')

theorem matching_sent (write : Bool) :
    Follows (channel isWrite (accepted p inputs) write) (sent p inputs write)
      (fun cmd addr => addr = (hostDirectCmd cmd.words).hostAddr) := by
  cases write with
  | true => exact matching_awSent p inputs
  | false => exact matching_arSent p inputs

/-- The host answers no transfer that it has not seen. -/
structure HostSound : Prop where
  awSeen : ∀ t, (eventsOf (completed inputs true) t).length ≤ (eventsOf (awSent p inputs) t).length
  wSeen : ∀ t, (eventsOf (completed inputs true) t).length ≤ (eventsOf (wSent p inputs) t).length
  arSeen : ∀ t, (eventsOf (completed inputs false) t).length ≤ (eventsOf (arSent p inputs) t).length

theorem length_popped_add_queue (write : Bool) (t : Nat) :
    (eventsOf (popped p inputs write) t).length + (idQueue (runAt p inputs t) write).length =
      (eventsOf (channel isWrite (accepted p inputs) write) t).length :=
  length_eventsOf_add_queue _ (fun t => idQueue (runAt p inputs t) write) (by cases write <;> rfl)
    (fun t => idQueue_step p (runAt p inputs t) (inputs t) write) t

theorem length_completed (write : Bool) (t : Nat) :
    (completed inputs write t).toList.length = (responds (inputs t) write).toNat := length_toList_eq responds_iff

variable {p inputs} (hHost : HostSound p inputs)
include hHost

theorem length_completed_le (write : Bool) (t : Nat) :
    (eventsOf (completed inputs write) (t + 1)).length ≤
      (eventsOf (channel isWrite (accepted p inputs) write) t).length := by
  have hHead : ∀ {Word : Type} {send : Bool} {queue : List Word}, (if send then queue.head? else none) ≠ none →
    queue ≠ [] := by
    intro Word send queue h hEmpty
    rw [hEmpty] at h
    exact h (ite_self none)
  cases write with
  | true =>
    exact (hHost.awSeen (t + 1)).trans (length_eventsOf_succ_le _ (fun t => (runAt p inputs t).aw) rfl
      (fun t => awSends_step p (runAt p inputs t) (inputs t)) (fun _ => hHead) t)
  | false =>
    exact (hHost.arSeen (t + 1)).trans (length_eventsOf_succ_le _ (fun t => (runAt p inputs t).ar) rfl
      (fun t => arSends_step p (runAt p inputs t) (inputs t)) (fun _ => hHead) t)

/-- Every response of the host finds the id of its command. -/
theorem run_popped (write : Bool) (t : Nat) :
    (eventsOf (popped p inputs write) t).length = (eventsOf (completed inputs write) t).length ∧
      (responds (inputs t) write = true ↔ popped p inputs write t ≠ none) := by
  have hNow : ∀ t, (eventsOf (popped p inputs write) t).length = (eventsOf (completed inputs write) t).length →
      (responds (inputs t) write = true ↔ popped p inputs write t ≠ none) := by
    intro t hBefore
    refine ⟨fun hResponds => ?_, responds_of_pops⟩
    have hSeen := length_completed_le hHost write t
    have hQueue := length_popped_add_queue p inputs write t
    rw [eventsOf_succ, List.length_append, length_completed, hResponds, Bool.toNat_true] at hSeen
    rw [popped, pops, if_pos hResponds, ne_eq, List.head?_eq_none_iff]
    exact List.length_pos_iff.mp (by omega)
  have hCount : ∀ t, (eventsOf (popped p inputs write) t).length =
    (eventsOf (completed inputs write) t).length := by
    intro t
    induction t with
    | zero => rfl
    | succ t ih =>
      rw [eventsOf_succ, eventsOf_succ, List.length_append, List.length_append, ih, length_toList_eq (hNow t ih),
        length_completed]
  exact ⟨hCount t, hNow t (hCount t)⟩

theorem cmdRespId_ne_none {t : Nat} (hValid : cmdRespValid (inputs t) = true) :
    cmdRespId (runAt p inputs t) (inputs t) ≠ none := by
  have hPopped : ∀ write, responds (inputs t) write = true → (idQueue (runAt p inputs t) write).head? ≠ none := by
    intro write hResponds
    have hNe := (run_popped hHost write t).2.mp hResponds
    rwa [popped, pops, if_pos hResponds] at hNe
  rw [cmdRespId]
  cases hR : (inputs t).rValid with
  | true => exact hPopped false (by rw [responds, rReady, hR]; rfl)
  | false =>
    rw [cmdRespValid, hR, Bool.false_or] at hValid
    rw [if_neg Bool.false_ne_true, if_pos hValid]
    exact hPopped true (by rw [responds, bReady, hR, hValid]; rfl)

theorem completed_of_popped {write : Bool} {y v : Nat}
    (h : InOrder (channel isWrite (accepted p inputs) write) (popped p inputs write) y v) :
    InOrder (channel isWrite (accepted p inputs) write) (completed inputs write) y v := by
  obtain ⟨hyv, hy, hv, hNumber⟩ := h
  exact ⟨hyv, hy, responds_iff.mp (responds_of_pops hv), hNumber.trans (run_popped hHost write v).1⟩

/-- The host port takes transfers again and again, and the host answers each. A response to a write waits for a
cycle without one to a read. -/
structure HostFair (p : Params) (inputs : Nat → Input numCmds) : Prop where
  writePort : Fair inputs
  ar : ∀ t, ∃ u, t ≤ u ∧ (inputs u).arReady = true
  answersWrites : ∀ {n t}, n < (eventsOf (awSent p inputs) t).length → n < (eventsOf (wSent p inputs) t).length →
    ∃ u, n < (eventsOf (completed inputs true) u).length
  answersReads : ∀ {n t}, n < (eventsOf (arSent p inputs) t).length →
    ∃ u, n < (eventsOf (completed inputs false) u).length

omit hHost in
theorem head?_ne_none_of_ready {Word : Type} {ready : Bool} {queue : List Word} (hReady : ready = true)
    (hQueue : queue ≠ []) : (if ready && !queue.isEmpty then queue.head? else none) ≠ none := by
  obtain ⟨first, rest, rfl⟩ := List.exists_cons_of_ne_nil hQueue
  rw [hReady]
  exact Option.some_ne_none first

omit hHost in
theorem exists_sent_write (h : HostFair p inputs) {n t : Nat}
    (hn : n < (eventsOf (channel isWrite (accepted p inputs) true) t).length) :
    ∃ u, n < (eventsOf (awSent p inputs) u).length ∧ n < (eventsOf (wSent p inputs) u).length := by
  obtain ⟨u, hu⟩ : ∃ u, n < (eventsOf (awSent p inputs) u).length := by
    refine exists_out_of_helped _ (fun t => (runAt p inputs t).aw) rfl (fun t => awSends_step p _ _)
      (fun t => ?_) hn
    obtain ⟨u, htu, hReady⟩ := h.writePort.aw t
    exact ⟨u, htu, head?_ne_none_of_ready hReady⟩
  obtain ⟨v, hv⟩ : ∃ v, n < (eventsOf (wSent p inputs) v).length := by
    refine exists_out_of_helped _ (fun t => (runAt p inputs t).w) rfl (fun t => wSends_step p _ _)
      (fun t => ?_) hn
    obtain ⟨u, htu, hReady⟩ := h.writePort.w t
    exact ⟨u, htu, head?_ne_none_of_ready hReady⟩
  have hAw := (eventsOf_mono (awSent p inputs) (Nat.le_max_left u v)).length_le
  have hW := (eventsOf_mono (wSent p inputs) (Nat.le_max_right u v)).length_le
  exact ⟨max u v, Nat.lt_of_lt_of_le hu hAw, Nat.lt_of_lt_of_le hv hW⟩

omit hHost in
theorem exists_sent_read (h : HostFair p inputs) {n t : Nat}
    (hn : n < (eventsOf (channel isWrite (accepted p inputs) false) t).length) :
    ∃ u, n < (eventsOf (arSent p inputs) u).length := by
  refine exists_out_of_helped _ (fun t => (runAt p inputs t).ar) rfl (fun t => arSends_step p _ _)
    (fun t => ?_) hn
  obtain ⟨u, htu, hReady⟩ := h.ar t
  exact ⟨u, htu, head?_ne_none_of_ready hReady⟩

omit hHost in
theorem total_sent (h : HostFair p inputs) :
    AllFollowed (channel isWrite (accepted p inputs) true) (awSent p inputs) ∧
      AllFollowed (channel isWrite (accepted p inputs) true) (wSent p inputs) ∧
      AllFollowed (channel isWrite (accepted p inputs) false) (arSent p inputs) := by
  refine ⟨total_of_served (fun t => ?_) fun hn => (exists_sent_write h hn).imp fun _ => And.left,
    total_of_served (fun t => ?_) fun hn => (exists_sent_write h hn).imp fun _ => And.right,
    total_of_served (fun t => ?_) (exists_sent_read h)⟩
  · exact (matching_awSent p inputs).length_le And.left t
  · exact (matching_wSent p inputs).length_le And.left t
  · exact (matching_arSent p inputs).length_le And.left t

theorem exists_popped (h : HostFair p inputs) {write : Bool} {n t : Nat}
    (hn : n < (eventsOf (channel isWrite (accepted p inputs) write) t).length) :
    ∃ u, n < (eventsOf (popped p inputs write) u).length := by
  have hCompleted : ∃ u, n < (eventsOf (completed inputs write) u).length := by
    cases write with
    | true =>
      obtain ⟨u, hAw, hW⟩ := exists_sent_write h hn
      exact h.answersWrites hAw hW
    | false =>
      obtain ⟨u, hAr⟩ := exists_sent_read h hn
      exact h.answersReads hAr
  obtain ⟨u, hu⟩ := hCompleted
  exact ⟨u, (run_popped hHost write u).1 ▸ hu⟩

theorem total_popped (h : HostFair p inputs) (write : Bool) :
    AllFollowed (channel isWrite (accepted p inputs) write) (popped p inputs write) := by
  refine total_of_served (fun t => ?_) (exists_popped hHost h)
  rw [← length_popped_add_queue]
  exact Nat.le_add_right _ _

theorem eventually_ready (h : HostFair p inputs) (hAw : 0 < p.awFifoDepth) (hAr : 0 < p.arFifoDepth)
    (hW : 0 < p.wFifoDepth) (hWrites : 0 < p.writesFifoDepth) (hReads : 0 < p.readsFifoDepth) {t : Nat}
    (hSilent : ∀ u, t ≤ u → accepted p inputs u = none) :
    ∃ u, t ≤ u ∧ cmdReqReady p (runAt p inputs u) (inputs u) = true := by
  have hNone : ∀ write u, t ≤ u → channel isWrite (accepted p inputs) write u = none := by
    intro write u htu
    rw [channel, hSilent u htu]
    rfl
  obtain ⟨aw, htAw, hAwEmpty⟩ :=
    eventually_empty _ (fun t => (runAt p inputs t).aw) rfl (fun t => awSends_step p _ _)
    (fun hn => (exists_sent_write h hn).imp fun _ => And.left) (hNone true)
  obtain ⟨w, htW, hWEmpty⟩ := eventually_empty _ (fun t => (runAt p inputs t).w) rfl (fun t => wSends_step p _ _)
    (fun hn => (exists_sent_write h hn).imp fun _ => And.right) (hNone true)
  obtain ⟨ar, htAr, hArEmpty⟩ :=
    eventually_empty _ (fun t => (runAt p inputs t).ar) rfl (fun t => arSends_step p _ _)
    (exists_sent_read h) (hNone false)
  obtain ⟨b, htB, hBEmpty⟩ := eventually_empty _ (fun t => idQueue (runAt p inputs t) true) rfl
    (fun t => idQueue_step p _ _ true) (exists_popped hHost h) (hNone true)
  obtain ⟨r, htR, hREmpty⟩ := eventually_empty _ (fun t => idQueue (runAt p inputs t) false) rfl
    (fun t => idQueue_step p _ _ false) (exists_popped hHost h) (hNone false)
  have hAwNow := hAwEmpty (aw + w + ar + b + r) (by omega)
  have hWNow := hWEmpty (aw + w + ar + b + r) (by omega)
  have hArNow := hArEmpty (aw + w + ar + b + r) (by omega)
  have hBNow : (runAt p inputs (aw + w + ar + b + r)).writeId = [] := hBEmpty (aw + w + ar + b + r) (by omega)
  have hRNow : (runAt p inputs (aw + w + ar + b + r)).readId = [] := hREmpty (aw + w + ar + b + r) (by omega)
  have hRoom : ∀ {Word : Type} {depth : Nat}, 0 < depth → full depth ([] : List Word) = false := fun hDepth =>
    decide_eq_false (Nat.not_le_of_lt hDepth)
  refine ⟨aw + w + ar + b + r, by omega, ?_⟩
  rw [cmdReqReady, hAwNow, hWNow, hArNow, hBNow, hRNow, hRoom hAw, hRoom hW, hRoom hAr, hRoom hWrites,
    hRoom hReads]
  cases (descr (inputs (aw + w + ar + b + r))).nicToHost <;> rfl

end Runs

end FPsPIN.HostDirect
