import FPsPIN.FifoEngine.Reservation
import FPsPIN.MpqEngine.Ordering

/-!
# The counters of an MPQ

length and in_flight against what they count, in every reachable state: the
packets linked in the FIFO of the MPQ, and the tasks that it was granted and
that have no feedback. Nothing is assumed about message boundaries. in_flight
has eight bits and counts modulo 256, and nothing in the engine stops the
grants before; a feedback then finds the counter at zero with 256 tasks out.
-/

namespace FPsPIN.MpqEngine

open Config Run

variable {p : Params} {b : Boot} {inputs : Nat → Input p}

theorem Environment.outstanding_pos (h : Environment b inputs) {t : Nat} {j : Index p}
    (hFeedback : (eventsAt b inputs j t).feedback = true) : 0 < outstandingAt b inputs t j := by
  have hOn : feedbackOn (inputs t) j ≠ [] := by
    intro hNil
    have hLength := length_feedbackOn (runAt b inputs t) (inputs t) j
    change _ = (eventsAt b inputs j t).feedback.toNat at hLength
    rw [hNil, hFeedback] at hLength
    cases hLength
  have hLt := h.feedback t j hOn
  have hPipe := pipeline_length b inputs j t
  unfold outstandingAt
  omega

theorem run_inFlight (h : Environment b inputs) (t : Nat) (j : Index p) :
    (mpqAt b inputs j t).inFlight = outstandingAt b inputs t j % counterRange := by
  induction t with
  | zero => rfl
  | succ t ih =>
    rw [mpqAt_succ, next_inFlight, ih, outstandingAt_succ h]
    exact count_mod fun hFeedback => h.outstanding_pos hFeedback

/-- What the registers say before cycle t, and that no counter runs below zero in it. -/
structure Counters (b : Boot) (inputs : Nat → Input p) (t : Nat) : Prop where
  packets : ∀ j, (FifoEngine.linkedCells (runAt b inputs t).fifo j).length =
    (mpqAt b inputs j t).length +
      if (mpqAt b inputs j t).hasCompletion = true ∧
        ((mpqAt b inputs j t).state = .payloadDraining ∨ (mpqAt b inputs j t).state = .completion) then 1 else 0
  inFlight : ∀ j, (mpqAt b inputs j t).inFlight = outstandingAt b inputs t j % 256
  lengthDown : ∀ j, (eventsAt b inputs j t).taskSent = true → (mpqAt b inputs j t).state = .payload →
    0 < (mpqAt b inputs j t).length
  inFlightDown : ∀ j, (eventsAt b inputs j t).feedback = true → outstandingAt b inputs t j < 256 →
    0 < (mpqAt b inputs j t).inFlight
  pop : fifoPop (runAt b inputs t) (inputs t) = true →
    FifoEngine.linkedCells (runAt b inputs t).fifo (tasksentMpqIdx (inputs t)) ≠ []

theorem mpqEngine_counters (h : Environment b inputs) (t : Nat) : Counters b inputs t where
  packets j := by
    have hBook := run_queueBook h.arb t
    rw [hBook.refines.length_linkedCells]
    exact (hBook.queued j).held
  inFlight := run_inFlight h t
  lengthDown j hSent hState := by
    have hValid : (mpqAt b inputs j t).valid = true := valid_of_sent (h.arb t) hSent
    rw [Mpq.valid_iff, hState] at hValid
    simpa using hValid
  inFlightDown j hFeedback hFew := by
    rw [run_inFlight h, counterRange, Nat.mod_eq_of_lt hFew]
    exact h.outstanding_pos hFeedback
  pop hPop := by
    have hBook := run_queueBook h.arb t
    have hEmpty := (hBook.legal (h.arb t)).pop hPop
    change (runAt b inputs t).fifo.fifoEmpty (tasksentMpqIdx (inputs t)) = false at hEmpty
    rw [hBook.refines.fifoEmpty_eq, List.isEmpty_eq_false_iff] at hEmpty
    rw [← List.length_pos_iff, hBook.refines.length_linkedCells]
    exact List.length_pos_of_ne_nil hEmpty

theorem mpqEngine_counters_burst :
    (mpqAt blankBoot (burst true) lane 257).length = 1 ∧ Counters blankBoot (burst true) 257 :=
  ⟨by rw [burst_arriving (Nat.le_refl 256)], mpqEngine_counters burst_environment 257⟩

/-- After 256 grants without a feedback the counter reads zero. -/
theorem inFlight_wraps :
    Environment blankBoot (burst true) ∧
      (mpqAt blankBoot (burst true) lane 257).inFlight ≠ outstandingAt blankBoot (burst true) 257 lane := by
  refine ⟨burst_environment, ?_⟩
  rw [burst_arriving (Nat.le_refl 256), outstandingAt, burst_grants (by decide), burst_feedbacks (by decide)]
  decide

end FPsPIN.MpqEngine
