import FPsPIN.MpqEngine.Bookkeeping

/-!
# Packets left in a free MPQ

An MPQ that has granted the last packet of its message still accepts HERs.
A packet accepted then is counted and queued, but the state machine goes on
to Free without looking at the count, and a free MPQ is never granted. The
admissible cycles are the ones that avoid this; a run leaves no packet behind
exactly when every cycle before a free state is admissible.
-/

namespace FPsPIN.MpqEngine

open Config Run

/-- States between the grant of the last payload task and Free. -/
def Mpq.Closing (m : Mpq) : Prop :=
  m.state = .payloadDraining ∨ m.state = .completion ∨ m.state = .completionRunning

/-- A HER does not arrive after, or together with, the grant of the last payload task. -/
def Admissible (m : Mpq) (e : FsmEvents) : Prop :=
  e.herNew = true →
    ¬ m.Closing ∧ ¬(m.state = .payload ∧ e.taskSent = true ∧ m.eomSeen = true ∧ m.length = 1)

def Mpq.Stranded (m : Mpq) : Prop := (m.state = .free ∨ m.Closing) ∧ 1 ≤ m.length

theorem MpqBook.not_stranded_next {m : Mpq} {len g : Nat} (h : MpqBook m len g) {e : FsmEvents}
    (hOk : LaneOk m len g e) (hAdm : Admissible m e) (hClean : ¬ m.Stranded) :
    ¬ (m.next e).Stranded := by
  rw [Mpq.Stranded, h.toQueued.next_length_eq hOk.sent hOk.room, Mpq.Closing, next_state]
  rw [Mpq.Stranded, Mpq.Closing] at hClean
  rw [Admissible, Mpq.Closing] at hAdm
  cases hState : m.state <;> cases hHer : e.herNew <;> cases hSent : e.taskSent <;>
    simp only [fsmState, hState, hHer, hSent] at * <;> grind

theorem MpqBook.stranded_of_not_admissible {m : Mpq} {len g : Nat} (h : MpqBook m len g)
    {e : FsmEvents} (hOk : LaneOk m len g e) (hAdm : ¬ Admissible m e) : (m.next e).Stranded := by
  rw [Mpq.Stranded, h.toQueued.next_length_eq hOk.sent hOk.room, Mpq.Closing, next_state]
  rw [Admissible, Mpq.Closing] at hAdm
  cases hState : m.state <;> cases hHer : e.herNew <;> cases hSent : e.taskSent <;>
    simp only [fsmState, hState, hHer, hSent] at * <;> grind

theorem MpqBook.stranded_next {m : Mpq} {len g : Nat} (h : MpqBook m len g) {e : FsmEvents}
    (hOk : LaneOk m len g e) (hBusy : m.state ≠ .free) (hStranded : m.Stranded) :
    (m.next e).Stranded := by
  rw [Mpq.Stranded, h.toQueued.next_length_eq hOk.sent hOk.room, Mpq.Closing, next_state]
  rw [Mpq.Stranded, Mpq.Closing] at hStranded
  cases hState : m.state <;> cases hHer : e.herNew <;> cases hSent : e.taskSent <;>
    simp only [fsmState, hState, hHer, hSent] at * <;> grind

section Runs

variable {p : Params} (b : Boot) (inputs : Nat → Input p)

def mpqAt (j : Index p) (t : Nat) : Mpq := (runAt b inputs t).mpqQ j

def eventsAt (j : Index p) (t : Nat) : FsmEvents := eventsOn (runAt b inputs t) (inputs t) j

theorem mpqAt_succ (j : Index p) (t : Nat) :
    mpqAt b inputs j (t + 1) = (mpqAt b inputs j t).next (eventsAt b inputs j t) :=
  mpqD_apply (runAt b inputs t) (inputs t) j

variable {b inputs}

theorem run_mpqBook (hEnv : Environment b inputs) (hFew : FewUnanswered b inputs) (j : Index p) (t : Nat) :
    MpqBook (mpqAt b inputs j t) (packetsAt b inputs t j).length (outstandingAt b inputs t j) :=
  (run_book hEnv hFew t).mpq j

theorem run_laneOk (hEnv : Environment b inputs) (hFew : FewUnanswered b inputs) (j : Index p) (t : Nat) :
    LaneOk (mpqAt b inputs j t) (packetsAt b inputs t j).length (outstandingAt b inputs t j)
      (eventsAt b inputs j t) :=
  (hEnv.cycleOk hFew t).laneOk (run_book hEnv hFew t) j

theorem not_stranded_of_admissible (hEnv : Environment b inputs) (hFew : FewUnanswered b inputs)
    (j : Index p) {t : Nat} (hAdm : ∀ u < t, Admissible (mpqAt b inputs j u) (eventsAt b inputs j u)) :
    ¬ (mpqAt b inputs j t).Stranded := by
  induction t with
  | zero => exact fun h => absurd h.2 (Nat.not_succ_le_zero 0)
  | succ t ih =>
    rw [mpqAt_succ]
    exact (run_mpqBook hEnv hFew j t).not_stranded_next (run_laneOk hEnv hFew j t)
      (hAdm t (Nat.lt_succ_self t)) (ih (fun u hu => hAdm u (Nat.lt_succ_of_lt hu)))

theorem exists_free_stranded (hEnv : Environment b inputs) (hFew : FewUnanswered b inputs)
    (j : Index p) {a d : Nat} (hStranded : (mpqAt b inputs j a).Stranded)
    (hFree : (mpqAt b inputs j (a + d)).state = .free) :
    ∃ t, (mpqAt b inputs j t).state = .free ∧ 1 ≤ (mpqAt b inputs j t).length := by
  induction d generalizing a with
  | zero => exact ⟨a, hFree, hStranded.2⟩
  | succ d ih =>
    by_cases hNow : (mpqAt b inputs j a).state = .free
    · exact ⟨a, hNow, hStranded.2⟩
    · have hNext := (run_mpqBook hEnv hFew j a).stranded_next (run_laneOk hEnv hFew j a) hNow hStranded
      rw [← mpqAt_succ] at hNext
      exact ih hNext (by rwa [Nat.add_assoc, Nat.add_comm 1])

theorem fifoEmpty_of_length_eq_zero (hEnv : Environment b inputs) (hFew : FewUnanswered b inputs)
    {j : Index p} {t : Nat} (hFree : (mpqAt b inputs j t).state = .free)
    (hLength : (mpqAt b inputs j t).length = 0) : (runAt b inputs t).fifo.fifoEmpty j = true := by
  have hHeld := (run_mpqBook hEnv hFew j t).held
  rw [Mpq.held, hLength, hFree, if_neg (by simp)] at hHeld
  rw [(run_book hEnv hFew t).refines.fifoEmpty_eq, List.isEmpty_iff_length_eq_zero]
  exact hHeld

/-- Free MPQs are empty along a run exactly when no inadmissible HER precedes a free state. -/
theorem free_empty_iff_admissible (hEnv : Environment b inputs) (hFew : FewUnanswered b inputs)
    (j : Index p) :
    (∀ t, (mpqAt b inputs j t).state = .free →
      (mpqAt b inputs j t).length = 0 ∧ (mpqAt b inputs j t).inFlight = 0 ∧
        (runAt b inputs t).fifo.fifoEmpty j = true) ↔
    (∀ u t, u < t → (mpqAt b inputs j t).state = .free →
      Admissible (mpqAt b inputs j u) (eventsAt b inputs j u)) := by
  constructor
  · intro hClean u t hut hFree
    by_contra hAdm
    have hStranded := (run_mpqBook hEnv hFew j u).stranded_of_not_admissible (run_laneOk hEnv hFew j u) hAdm
    rw [← mpqAt_succ] at hStranded
    obtain ⟨d, rfl⟩ := Nat.exists_eq_add_of_le (Nat.succ_le_of_lt hut)
    obtain ⟨v, hFreeV, hLength⟩ := exists_free_stranded hEnv hFew j hStranded hFree
    have hZero := (hClean v hFreeV).1
    omega
  · intro hAdm t hFree
    have hNot := not_stranded_of_admissible hEnv hFew j (fun u hu => hAdm u t hu hFree)
    have hLength : (mpqAt b inputs j t).length = 0 :=
      Nat.eq_zero_of_not_pos (fun hOne => hNot ⟨Or.inl hFree, hOne⟩)
    have hOut := (run_mpqBook hEnv hFew j t).outstanding
    rw [Mpq.Outstanding, hFree] at hOut
    refine ⟨hLength, ?_, fifoEmpty_of_length_eq_zero hEnv hFew hFree hLength⟩
    rw [(run_mpqBook hEnv hFew j t).inFlight, hOut]
    rfl

theorem state_free_of_no_her (j : Index p) (hNone : ∀ t, (eventsAt b inputs j t).herNew = false) (t : Nat) :
    (mpqAt b inputs j t).state = .free := by
  induction t with
  | zero => rfl
  | succ t ih =>
    rw [mpqAt_succ, next_state, fsmState, ih]
    simp [hNone t]

theorem arb_of_single (j : Index p) (hHer : ∀ t, newherMpqIdx (inputs t) = j)
    (hArb : ∀ t, (inputs t).mpqArbIdx = j) (t : Nat) (hValid : arbValid (runAt b inputs t) = true) :
    ((runAt b inputs t).mpqQ (inputs t).mpqArbIdx).valid = true := by
  obtain ⟨k, hk⟩ := of_decide_eq_true hValid
  by_cases hkj : k = j
  · rw [hArb t, ← hkj]
    exact hk
  · have hNone : ∀ u, (eventsAt b inputs k u).herNew = false := by
      intro u
      simp only [eventsAt, eventsOn, hHer u, Bool.and_eq_false_iff]
      exact Or.inr (beq_false_of_ne (Ne.symm hkj))
    have hFree : ((runAt b inputs t).mpqQ k).state = .free := state_free_of_no_her k hNone t
    simp [Mpq.valid, hFree] at hk

end Runs

section Overlap

def payloadOnly : MpqMeta := ⟨0, 0, 0, 0, 0, 0, 1, 0, 0, 0, fun _ => 0, fun _ => 0⟩

def blankBoot : Boot := ⟨fun _ => ⟨0, 0⟩, ⟨0, 0⟩, fun _ => payloadOnly, payloadOnly⟩

/-- A message of one packet, answered in cycle 3; with late set, the packet of a second message
arrives in cycle 1, together with the grant of the first. -/
def oneAndMaybeLate (late : Bool) (t : Nat) : Input deployed where
  herValid := t == 0 || (t == 1 && late)
  her := ⟨0, true, 0, 64, 64, payloadOnly⟩
  feedbackValid := t == 3
  feedback := ⟨0, 64, 0, true⟩
  taskReady := true
  nicFeedbackReady := true
  mpqArbIdx := ⟨0, by decide⟩

theorem oneAndMaybeLate_feedback {late : Bool} {t : Nat} {j : Index deployed}
    (h : feedbackOn (oneAndMaybeLate late t) j ≠ []) :
    t = 3 ∧ j = ⟨0, by decide⟩ := by
  simp only [feedbackOn, feedbackNew, oneAndMaybeLate, Bool.and_true, ne_eq, ite_eq_right_iff,
    Bool.and_eq_true, beq_iff_eq] at h
  push Not at h
  exact ⟨h.1.1, h.1.2.symm⟩

theorem oneAndMaybeLate_tasks (late : Bool) :
    (tasksOn blankBoot (oneAndMaybeLate late) ⟨0, by decide⟩ 0 3).length = 1 := by
  cases late <;> decide +kernel

theorem oneAndMaybeLate_feedbacks (late : Bool) :
    (feedbacksOn (oneAndMaybeLate late) ⟨0, by decide⟩ 0 3).length = 0 := by
  cases late <;> decide +kernel

theorem oneAndMaybeLate_environment (late : Bool) : Environment blankBoot (oneAndMaybeLate late) where
  arb := arb_of_single ⟨0, by decide⟩ (fun _ => rfl) (fun _ => rfl)
  feedback t j h := by
    obtain ⟨rfl, rfl⟩ := oneAndMaybeLate_feedback h
    rw [oneAndMaybeLate_tasks, oneAndMaybeLate_feedbacks]
    exact Nat.zero_lt_one

theorem oneAndMaybeLate_fewUnanswered (late : Bool) : FewUnanswered blankBoot (oneAndMaybeLate late) := by
  intro t j h
  obtain ⟨rfl, rfl⟩ := oneAndMaybeLate_feedback h
  rw [oneAndMaybeLate_tasks, oneAndMaybeLate_feedbacks]
  omega

/-- The packet and the EOM of the second message stay behind in a free MPQ. -/
theorem late_packet_stranded :
    Environment blankBoot (oneAndMaybeLate true) ∧
      (mpqAt blankBoot (oneAndMaybeLate true) ⟨0, by decide⟩ 4).state = .free ∧
      (mpqAt blankBoot (oneAndMaybeLate true) ⟨0, by decide⟩ 4).length = 1 ∧
      (runAt blankBoot (oneAndMaybeLate true) 4).fifo.fifoEmpty ⟨0, by decide⟩ = false :=
  ⟨oneAndMaybeLate_environment true, by decide +kernel, by decide +kernel, by decide +kernel⟩

theorem free_empty_one_message :
    Environment blankBoot (oneAndMaybeLate false) ∧
      ∀ t, (mpqAt blankBoot (oneAndMaybeLate false) ⟨0, by decide⟩ t).state = .free →
        (mpqAt blankBoot (oneAndMaybeLate false) ⟨0, by decide⟩ t).length = 0 ∧
          (mpqAt blankBoot (oneAndMaybeLate false) ⟨0, by decide⟩ t).inFlight = 0 ∧
          (runAt blankBoot (oneAndMaybeLate false) t).fifo.fifoEmpty ⟨0, by decide⟩ = true := by
  refine ⟨oneAndMaybeLate_environment false,
    (free_empty_iff_admissible (oneAndMaybeLate_environment false)
      (oneAndMaybeLate_fewUnanswered false) ⟨0, by decide⟩).mpr (fun u t _ _ hHer => ?_)⟩
  -- Only the HER of cycle 0 arrives, and the MPQ is free then.
  have hZero : u = 0 := by
    simp only [eventsAt, eventsOn, herNew, oneAndMaybeLate, Bool.and_false, Bool.or_false,
      Bool.and_eq_true, beq_iff_eq] at hHer
    exact hHer.1.1
  subst hZero
  rw [Mpq.Closing]
  decide +kernel

end Overlap

end FPsPIN.MpqEngine
