import Mathlib.Data.List.NodupEquivFin
import FPsPIN.MpqEngine.Ordering

/-!
# Packet buffers are released once, after their last use

A feedback that is forwarded to the NIC gives the packet buffer of a HER back.
Up to three tasks refer to one packet; the one whose grant pops the packet
queue carries the trigger. HERs are numbered per MPQ in the order of their
acceptance and tasks in the order of their grants, so that a task refers to
the HER whose number is the number of packets popped before its grant. Nothing
is assumed about message boundaries, and feedbacks come in any order; as for
the order of the tasks, at most 255 tasks of an MPQ may be unanswered when a
feedback is taken.
-/

namespace FPsPIN.MpqEngine

open Config Run

def feedbackFor (task : HandlerTask) : FeedbackDescr :=
  ⟨task.pktAddr, task.pktSize, task.msgid, task.triggerFeedback⟩

section Runs

variable {p : Params} (b : Boot) (inputs : Nat → Input p) (which : Nat → Nat)

def popsAt (j : Index p) (t : Nat) : Bool :=
  (eventsAt b inputs j t).taskSent && (mpqAt b inputs j t).pops (eventsAt b inputs j t)

def headAt (j : Index p) : Nat → Nat
  | 0 => 0
  | t + 1 => headAt j t + (popsAt b inputs j t).toNat

def refers (j : Index p) (t : Nat) : List Nat :=
  if (eventsAt b inputs j t).taskSent then [headAt b inputs j t] else []

/-- For the tasks of MPQ j granted before cycle t, in order: the HERs whose packets they refer to. -/
def refersOn (j : Index p) (t : Nat) : List Nat := window (refers b inputs j) 0 t

/-- A feedback taken in cycle t answers task number which t of its MPQ, taken before and not answered
before. -/
structure Answers : Prop where
  arb : Arbitrated b inputs
  feedback : ∀ t j, feedbackOn (inputs t) j ≠ [] →
    ∃ task, (tasksOn b inputs j 0 t)[which t]? = some task ∧ (inputs t).feedback = feedbackFor task
  once : ∀ t u j, feedbackOn (inputs t) j ≠ [] → feedbackOn (inputs u) j ≠ [] → which t = which u → t = u

def Answered (j : Index p) (t k : Nat) : Prop := ∃ u < t, feedbackOn (inputs u) j ≠ [] ∧ which u = k

/-- In cycle t the NIC gets the feedback for the packet of HER number n of MPQ j. -/
def Releases (j : Index p) (n t : Nat) : Prop :=
  feedbackOn (inputs t) j ≠ [] ∧ nicFeedback (inputs t) ≠ none ∧
    (refersOn b inputs j t)[which t]? = some n

/-- Tasks carry the packets of the HERs they refer to; a packet is released at most once, when all other
tasks that refer to it are answered, and no task taken from then on refers to it. -/
structure ReleaseSafe : Prop where
  packet : ∀ (j : Index p) (t k : Nat) (task : HandlerTask), (tasksOn b inputs j 0 t)[k]? = some task →
    ∃ (n : Nat) (her : HerDescr), (refersOn b inputs j t)[k]? = some n ∧ (hersOn b inputs j 0 t)[n]? = some her ∧
      task.pktAddr = her.herAddr ∧ task.pktSize = her.xferSize
  once : ∀ j n t u, Releases b inputs which j n t → Releases b inputs which j n u → t = u
  answered : ∀ (j : Index p) (n t k : Nat), Releases b inputs which j n t → k < (tasksOn b inputs j 0 t).length →
    (refersOn b inputs j t)[k]? = some n → k ≠ which t → Answered inputs which j t k
  closed : ∀ (j : Index p) (n t u k : Nat), Releases b inputs which j n t →
    (tasksOn b inputs j 0 t).length ≤ k →
    (refersOn b inputs j u)[k]? ≠ some n

theorem headAt_succ (j : Index p) (t : Nat) :
    headAt b inputs j (t + 1) = headAt b inputs j t + (popsAt b inputs j t).toNat := rfl

theorem headAt_of_not_pops (j : Index p) {t : Nat} (h : popsAt b inputs j t = false) :
    headAt b inputs j (t + 1) = headAt b inputs j t := by
  rw [headAt_succ, h, Bool.toNat_false, Nat.add_zero]

theorem headAt_mono (j : Index p) {t u : Nat} (h : t ≤ u) : headAt b inputs j t ≤ headAt b inputs j u := by
  obtain ⟨d, rfl⟩ := Nat.exists_eq_add_of_le h
  induction d with
  | zero => exact Nat.le_refl _
  | succ d ih =>
    rw [← Nat.add_assoc, headAt_succ]
    exact Nat.le_trans (ih (Nat.le_add_right t d)) (Nat.le_add_right _ _)

theorem grantsOn_mono (j : Index p) {t u : Nat} (h : t ≤ u) :
    (grantsOn b inputs j 0 t).length ≤ (grantsOn b inputs j 0 u).length :=
  (window_mono _ h).length_le

variable {b inputs which}

theorem length_refersOn (j : Index p) (t : Nat) :
    (refersOn b inputs j t).length = (grantsOn b inputs j 0 t).length := by
  induction t with
  | zero => rfl
  | succ t ih =>
    rw [refersOn, grantsOn, window_succ _ (Nat.zero_le t), window_succ _ (Nat.zero_le t), List.length_append,
      List.length_append, length_grantsOn, ← refersOn, ← grantsOn, ih, refers, eventsAt]
    cases (eventsOn (runAt b inputs t) (inputs t) j).taskSent <;> rfl

theorem getElem?_refersOn {j : Index p} {t k n : Nat} :
    (refersOn b inputs j t)[k]? = some n ↔
      ∃ u < t, (eventsAt b inputs j u).taskSent = true ∧ (grantsOn b inputs j 0 u).length = k ∧
        headAt b inputs j u = n := by
  rw [refersOn, getElem?_window]
  refine exists_congr fun u => and_congr_right fun _ => ?_
  rw [← refersOn, length_refersOn, refers]
  cases (eventsAt b inputs j u).taskSent with
  | false => simp
  | true =>
    simp only [if_true, true_and, List.getElem?_singleton]
    constructor
    · rintro ⟨hLe, h⟩
      split_ifs at h with hZero
      exact ⟨by omega, Option.some.inj h⟩
    · rintro ⟨rfl, rfl⟩
      exact ⟨Nat.le_refl _, by rw [Nat.sub_self, if_pos rfl]⟩

theorem refersOn_after_pop {j : Index p} {u v k n : Nat} (hPop : popsAt b inputs j u = true)
    (hk : (grantsOn b inputs j 0 u).length < k) (hRefers : (refersOn b inputs j v)[k]? = some n) :
    headAt b inputs j u < n := by
  obtain ⟨w, _, _, hCount, rfl⟩ := getElem?_refersOn.mp hRefers
  have huw : u < w := by
    by_contra hwu
    have hLe := grantsOn_mono b inputs j (Nat.le_of_not_lt hwu)
    omega
  have hLe := headAt_mono b inputs j (Nat.succ_le_of_lt huw)
  rw [Nat.succ_eq_add_one, headAt_succ, hPop] at hLe
  exact hLe

section Feedbacks

variable (inputs which) in
def answeredOn (j : Index p) (t : Nat) : List Nat :=
  window (fun u => (feedbackOn (inputs u) j).map (fun _ => which u)) 0 t

theorem mem_answeredOn {j : Index p} {t k : Nat} :
    k ∈ answeredOn inputs which j t ↔ Answered inputs which j t k := by
  rw [answeredOn, mem_window]
  constructor
  · rintro ⟨u, _, hut, hMem⟩
    obtain ⟨feedback, hFeedback, rfl⟩ := List.mem_map.mp hMem
    exact ⟨u, hut, List.ne_nil_of_mem hFeedback, rfl⟩
  · rintro ⟨u, hut, hSome, rfl⟩
    obtain ⟨feedback, hFeedback⟩ := List.exists_mem_of_ne_nil _ hSome
    exact ⟨u, Nat.zero_le u, hut, List.mem_map.mpr ⟨feedback, hFeedback, rfl⟩⟩

theorem length_answeredOn (j : Index p) (t : Nat) :
    (answeredOn inputs which j t).length = (feedbacksOn inputs j 0 t).length := by
  induction t with
  | zero => rfl
  | succ t ih =>
    rw [answeredOn, feedbacksOn, window_succ _ (Nat.zero_le t), window_succ _ (Nat.zero_le t),
      List.length_append, List.length_append, List.length_map, ← answeredOn, ← feedbacksOn, ih]

theorem Answered.mono {j : Index p} {t u k : Nat} (h : Answered inputs which j t k) (htu : t ≤ u) :
    Answered inputs which j u k := by
  obtain ⟨v, hvt, hFeedback⟩ := h
  exact ⟨v, Nat.lt_of_lt_of_le hvt htu, hFeedback⟩

theorem feedbackOn_le_one (j : Index p) (i : Input p) : (feedbackOn i j).length ≤ 1 := by
  rw [feedbackOn]
  split_ifs <;> simp

theorem Answers.nodup (h : Answers b inputs which) (j : Index p) (t : Nat) :
    (answeredOn inputs which j t).Nodup := by
  induction t with
  | zero => exact List.nodup_nil
  | succ t ih =>
    rw [answeredOn, window_succ _ (Nat.zero_le t), ← answeredOn]
    refine ih.append ?_ ?_
    · rw [List.nodup_iff_count_le_one]
      intro k
      exact List.count_le_length.trans (by rw [List.length_map]; exact feedbackOn_le_one j (inputs t))
    · intro k hBefore hNow
      obtain ⟨u, hut, hFeedback, rfl⟩ := mem_answeredOn.mp hBefore
      obtain ⟨feedback, hMem, hEq⟩ := List.mem_map.mp hNow
      have hSame := h.once t u j (List.ne_nil_of_mem hMem) hFeedback hEq
      omega

theorem Answers.lt_of_answered (h : Answers b inputs which) {j : Index p} {t k : Nat}
    (hAnswered : Answered inputs which j t k) : k < (tasksOn b inputs j 0 t).length := by
  obtain ⟨u, hut, hFeedback, rfl⟩ := hAnswered
  obtain ⟨task, hTask, _⟩ := h.feedback u j hFeedback
  exact Nat.lt_of_lt_of_le (List.getElem?_eq_some_iff.mp hTask).1
    (window_mono _ (Nat.le_of_lt hut)).length_le

theorem Answers.environment (h : Answers b inputs which) : Environment b inputs where
  arb := h.arb
  feedback t j hFeedback := by
    have hNodup := h.nodup j (t + 1)
    have hSubset : answeredOn inputs which j (t + 1) ⊆ List.range (tasksOn b inputs j 0 t).length := by
      intro k hk
      obtain ⟨u, hut, hSome, rfl⟩ := mem_answeredOn.mp hk
      obtain ⟨task, hTask, _⟩ := h.feedback u j hSome
      exact List.mem_range.mpr (Nat.lt_of_lt_of_le (List.getElem?_eq_some_iff.mp hTask).1
        (window_mono _ (Nat.le_of_lt_succ hut)).length_le)
    have hLe := (hNodup.subperm hSubset).length_le
    rw [List.length_range, length_answeredOn, feedbacksOn, window_succ _ (Nat.zero_le t), List.length_append,
      ← feedbacksOn] at hLe
    have hPos := List.length_pos_of_ne_nil hFeedback
    omega

theorem Answers.answered_of_none (h : Answers b inputs which) {j : Index p} {t : Nat}
    (hNone : outstandingAt b inputs t j = 0) {k : Nat} (hk : k < (grantsOn b inputs j 0 t).length) :
    Answered inputs which j t k := by
  have hSubset : answeredOn inputs which j t ⊆ List.range (tasksOn b inputs j 0 t).length :=
    fun l hl => List.mem_range.mpr (h.lt_of_answered (mem_answeredOn.mp hl))
  have hPerm := ((h.nodup j t).subperm hSubset).perm_of_length_le (by
    have hPipe := pipeline_length b inputs j t
    rw [outstandingAt] at hNone
    rw [List.length_range, length_answeredOn]
    omega)
  have hLe := h.environment.feedbacks_le j t
  have hPipe := pipeline_length b inputs j t
  rw [outstandingAt] at hNone
  rw [← mem_answeredOn, hPerm.mem_iff, List.mem_range]
  omega

end Feedbacks

section Safety

theorem hersOn_succ (j : Index p) (t : Nat) :
    hersOn b inputs j 0 (t + 1) = hersOn b inputs j 0 t ++ newHers (eventsAt b inputs j t) (inputs t).her := by
  rw [hersOn, window_succ _ (Nat.zero_le t), herOn_eq_newHers, ← hersOn]

theorem packetsAt_eq_drop (hArb : Arbitrated b inputs) (j : Index p) (t : Nat) :
    headAt b inputs j t ≤ (hersOn b inputs j 0 t).length ∧
      packetsAt b inputs t j = ((hersOn b inputs j 0 t).drop (headAt b inputs j t)).map newPkt := by
  induction t with
  | zero => exact ⟨Nat.le_refl _, rfl⟩
  | succ t ih =>
    obtain ⟨hLe, hQueue⟩ := ih
    rw [packetsAt_succ_eq, nextQueue, ← popsAt, headAt_succ, hersOn_succ, List.length_append]
    cases hPop : popsAt b inputs j t with
    | false =>
      refine ⟨Nat.le_trans hLe (Nat.le_add_right _ _), ?_⟩
      rw [if_neg Bool.false_ne_true, Bool.toNat_false, Nat.add_zero, List.drop_append_of_le_length hLe,
        List.map_append, hQueue]
    | true =>
      have hSome := packetsAt_of_valid hArb (valid_of_sent (hArb t) (Bool.and_eq_true_iff.mp hPop).1)
      rw [hQueue] at hSome
      have hLt : headAt b inputs j t < (hersOn b inputs j 0 t).length := by
        by_contra hGe
        apply hSome
        rw [List.drop_of_length_le (Nat.le_of_not_lt hGe)]
        rfl
      refine ⟨Nat.le_trans hLt (Nat.le_add_right _ _), ?_⟩
      rw [if_pos rfl, Bool.toNat_true, List.drop_append_of_le_length hLt, List.map_append, hQueue,
        ← List.map_tail, List.tail_drop]

theorem granted_of_taken {j : Index p} {t k : Nat} {task : HandlerTask}
    (hTask : (tasksOn b inputs j 0 t)[k]? = some task) :
    ∃ u < t, (eventsAt b inputs j u).taskSent = true ∧ (grantsOn b inputs j 0 u).length = k ∧
      onMpq j (grants (runAt b inputs u) (inputs u)) = [task] := by
  have hPipe := pipeline_window b inputs j (Nat.zero_le t)
  have hEmpty : onMpq j (pending (runAt b inputs 0)) = [] := rfl
  rw [hEmpty, List.nil_append] at hPipe
  have hGranted : (grantsOn b inputs j 0 t)[k]? = some task := by
    rw [hPipe, List.getElem?_append_left (List.getElem?_eq_some_iff.mp hTask).1]
    exact hTask
  obtain ⟨u, hut, hLe, hMem⟩ := getElem?_window.mp hGranted
  rw [← grantsOn] at hLe hMem
  refine ⟨u, hut, ?_⟩
  rw [onMpq_grants, ← eventsAt] at hMem ⊢
  split_ifs at hMem ⊢ with hSent
  · rw [List.getElem?_singleton] at hMem
    split_ifs at hMem with hZero
    rw [Option.some.inj hMem]
    exact ⟨hSent, by omega, rfl⟩
  · cases hMem

theorem Answers.payload_answered (h : Answers b inputs which) (hFew : FewUnanswered b inputs) {j : Index p}
    {t k : Nat} (hPayload : (mpqAt b inputs j t).state = .payload)
    (hRefers : (refersOn b inputs j t)[k]? = some (headAt b inputs j t)) : Answered inputs which j t k := by
  induction t with
  | zero => cases hRefers
  | succ t ih =>
    have hBook := run_mpqBook h.environment hFew j t
    have hOk := run_laneOk h.environment hFew j t
    have hOut := hBook.outstanding
    have hNext := outstandingAt_succ h.environment t j
    rw [← eventsAt] at hNext
    have hCount := (List.getElem?_eq_some_iff.mp hRefers).1
    rw [length_refersOn] at hCount
    rw [mpqAt_succ, next_state] at hPayload
    cases hState : (mpqAt b inputs j t).state with
    | free =>
      have hSent := hOk.not_sent (by simp [Mpq.valid, hState])
      rw [Mpq.Outstanding, hState] at hOut
      rw [hSent, hOut] at hNext
      exact h.answered_of_none (by simpa using hNext) hCount
    | headerRunning =>
      have hSent := hOk.not_sent (by simp [Mpq.valid, hState])
      have hFeedback : (eventsAt b inputs j t).feedback = true := by
        by_contra hNone
        simp [fsmState, hState, hNone] at hPayload
      rw [Mpq.Outstanding, hState] at hOut
      rw [hSent, hOut, hFeedback] at hNext
      exact h.answered_of_none hNext hCount
    | payload =>
      rw [headAt_succ, popsAt, pops_payload hState hPayload, Bool.and_true] at hRefers
      obtain ⟨u, hut, hGrant, hNumber, hHead⟩ := getElem?_refersOn.mp hRefers
      cases hSent : (eventsAt b inputs j t).taskSent with
      | true =>
        -- The grant pops, and every earlier task refers to a packet before the new head.
        have hLe := headAt_mono b inputs j (Nat.le_of_lt_succ hut)
        rw [hSent, Bool.toNat_true] at hHead
        omega
      | false =>
        rw [hSent, Bool.toNat_false, Nat.add_zero] at hHead
        have hLt : u < t := by
          rcases Nat.lt_succ_iff_lt_or_eq.mp hut with hLt | rfl
          · exact hLt
          · rw [hSent] at hGrant
            cases hGrant
        exact (ih hState (getElem?_refersOn.mpr ⟨u, hLt, hGrant, hNumber, hHead⟩)).mono (Nat.le_succ t)
    | header => grind [fsmState]
    | payloadDraining => grind [fsmState]
    | completion => grind [fsmState]
    | completionRunning => grind [fsmState]

theorem Answers.pop_answered (h : Answers b inputs which) (hFew : FewUnanswered b inputs) {j : Index p} {t k : Nat}
    (hPop : popsAt b inputs j t = true) (hRefers : (refersOn b inputs j t)[k]? = some (headAt b inputs j t)) :
    Answered inputs which j t k := by
  rw [popsAt, Bool.and_eq_true] at hPop
  obtain hHeader | ⟨hPayload, _⟩ | hCompletion :=
    Mpq.valid_iff.mp ((run_laneOk h.environment hFew j t).sent hPop.1)
  · rw [pops_header hHeader] at hPop
    cases hPop.2
  · exact h.payload_answered hFew hPayload hRefers
  · have hOut := (run_mpqBook h.environment hFew j t).outstanding
    rw [Mpq.Outstanding, hCompletion] at hOut
    have hCount := (List.getElem?_eq_some_iff.mp hRefers).1
    rw [length_refersOn] at hCount
    exact h.answered_of_none hOut hCount

theorem taken_packet (hArb : Arbitrated b inputs) {j : Index p} {t k : Nat} {task : HandlerTask}
    (hTask : (tasksOn b inputs j 0 t)[k]? = some task) :
    ∃ u < t, ∃ her, (grantsOn b inputs j 0 u).length = k ∧ (eventsAt b inputs j u).taskSent = true ∧
      (hersOn b inputs j 0 u)[headAt b inputs j u]? = some her ∧ task.pktAddr = her.herAddr ∧
      task.pktSize = her.xferSize ∧ task.msgid = BitVec.ofNat 10 j ∧
      task.triggerFeedback = popsAt b inputs j u := by
  obtain ⟨u, hut, hSent, hNumber, hGrants⟩ := granted_of_taken hTask
  have hSome := packetsAt_of_valid hArb (valid_of_sent (hArb u) hSent)
  have hDrop := (packetsAt_eq_drop hArb j u).2
  cases hHers : (hersOn b inputs j 0 u).drop (headAt b inputs j u) with
  | nil =>
    rw [hDrop, hHers] at hSome
    exact absurd rfl hSome
  | cons her rest =>
    rw [hHers, List.map_cons] at hDrop
    rw [grants_of_sent (run_queueBook hArb u).refines hSent hDrop] at hGrants
    have hHer : (hersOn b inputs j 0 u)[headAt b inputs j u]? = some her := by
      rw [← List.head?_drop, hHers, List.head?_cons]
    refine ⟨u, hut, her, hNumber, hSent, hHer, ?_⟩
    rw [← (List.cons.inj hGrants).1, popsAt, hSent, Bool.true_and, mpqAt]
    obtain hState | ⟨hState, _⟩ | hState :=
      Mpq.valid_iff.mp (valid_of_sent (hArb u) hSent)
    all_goals
      rw [hState]
      exact ⟨rfl, rfl, rfl, rfl⟩

theorem Answers.release_popped (h : Answers b inputs which) {j : Index p} {n t : Nat}
    (hRelease : Releases b inputs which j n t) :
    ∃ u < t, popsAt b inputs j u = true ∧ (grantsOn b inputs j 0 u).length = which t ∧
      headAt b inputs j u = n := by
  obtain ⟨hFeedback, hNic, hRefers⟩ := hRelease
  obtain ⟨task, hTask, hFor⟩ := h.feedback t j hFeedback
  obtain ⟨u, hut, _, hNumber, hSent, _, _, _, _, hTrigger⟩ := taken_packet h.arb hTask
  refine ⟨u, hut, ?_, hNumber, ?_⟩
  · rw [← hTrigger]
    by_contra hNone
    simp only [Bool.not_eq_true] at hNone
    simp [nicFeedback, hFor, feedbackFor, hNone] at hNic
  · have hAt := getElem?_refersOn.mpr ⟨u, hut, hSent, hNumber, rfl⟩
    exact Option.some.inj (hAt.symm.trans hRefers)

/-- No packet buffer is used after its release. -/
theorem release_safe (h : Answers b inputs which) (hFew : FewUnanswered b inputs) :
    ReleaseSafe b inputs which where
  packet j t k task hTask := by
    obtain ⟨u, hut, her, hNumber, hSent, hHer, hAddr, hSize, _⟩ := taken_packet h.arb hTask
    obtain ⟨rest, hRest⟩ := window_mono (fun v => herOn (runAt b inputs v) (inputs v) j) (Nat.le_of_lt hut)
    refine ⟨headAt b inputs j u, her, getElem?_refersOn.mpr ⟨u, hut, hSent, hNumber, rfl⟩, ?_, hAddr, hSize⟩
    rw [hersOn, ← hRest, ← hersOn]
    exact (List.getElem?_append_left (List.getElem?_eq_some_iff.mp hHer).1).trans hHer
  once j n t u hT hU := by
    obtain ⟨v, _, hPopV, hNumberV, hHeadV⟩ := h.release_popped hT
    obtain ⟨w, _, hPopW, hNumberW, hHeadW⟩ := h.release_popped hU
    apply h.once t u j hT.1 hU.1
    rcases Nat.lt_trichotomy (which t) (which u) with hLt | hEq | hGt
    · have hHead := refersOn_after_pop hPopV (hNumberV ▸ hLt) hU.2.2
      omega
    · exact hEq
    · have hHead := refersOn_after_pop hPopW (hNumberW ▸ hGt) hT.2.2
      omega
  answered j n t k hRelease _ hRefers hOther := by
    obtain ⟨u, hut, hPop, hNumber, hHead⟩ := h.release_popped hRelease
    rcases Nat.lt_or_gt_of_ne hOther with hLt | hGt
    · obtain ⟨v, _, hSent, hCount, hRefer⟩ := getElem?_refersOn.mp hRefers
      have hvu : v < u := by
        by_contra huv
        have hLe := grantsOn_mono b inputs j (Nat.le_of_not_lt huv)
        omega
      have hEarlier := getElem?_refersOn.mpr ⟨v, hvu, hSent, hCount, hRefer.trans hHead.symm⟩
      exact (h.pop_answered hFew hPop hEarlier).mono (Nat.le_of_lt hut)
    · have hAfter := refersOn_after_pop hPop (hNumber ▸ hGt) hRefers
      omega
  closed j n t u k hRelease hLater hRefers := by
    obtain ⟨v, _, hPop, hNumber, hHead⟩ := h.release_popped hRelease
    obtain ⟨task, hTask, _⟩ := h.feedback t j hRelease.1
    have hTaken := (List.getElem?_eq_some_iff.mp hTask).1
    have hAfter := refersOn_after_pop hPop (by omega) hRefers
    omega

end Safety

end Runs

section OutOfOrder

/-- The message of two packets with all handlers, the two payload tasks answered in reverse order. -/
def reversed (t : Nat) : Input deployed := { orderly t with feedback := ⟨0, 64, 0, t == 8 || t == 11⟩ }

def reversedTask (t : Nat) : Nat := if t = 3 then 0 else if t = 7 then 2 else if t = 8 then 1 else 3

theorem reversed_feedback {t : Nat} {j : Index deployed} (h : feedbackOn (reversed t) j ≠ []) :
    t ∈ [3, 7, 8, 11] ∧ j = lane := by
  have hOrderly : feedbackOn (orderly t) j ≠ [] := by
    intro hNone
    apply h
    simpa [feedbackOn, feedbackNew, feedbackMpqIdx, reversed, orderly] using hNone
  obtain ⟨ht, hj⟩ := orderly_feedback hOrderly
  exact ⟨by simpa using ht, hj⟩

theorem reversed_tasks : ∀ t ∈ [3, 7, 8, 11],
    ((tasksOn blankBoot reversed lane 0 t)[reversedTask t]?).map feedbackFor = some (reversed t).feedback ∧
      (tasksOn blankBoot reversed lane 0 t).length ≤ 255 := by
  decide +kernel

theorem reversed_answers : Answers blankBoot reversed reversedTask where
  arb := arb_of_single lane (fun _ => rfl) (fun _ => rfl)
  feedback t j h := by
    obtain ⟨ht, rfl⟩ := reversed_feedback h
    obtain ⟨task, hTask, hFor⟩ := Option.map_eq_some_iff.mp (reversed_tasks t ht).1
    exact ⟨task, hTask, hFor.symm⟩
  once t u j ht hu hSame := by
    have hDistinct : ∀ t ∈ [3, 7, 8, 11], ∀ u ∈ [3, 7, 8, 11], reversedTask t = reversedTask u → t = u := by
      decide
    exact hDistinct t (reversed_feedback ht).1 u (reversed_feedback hu).1 hSame

theorem reversed_fewUnanswered : FewUnanswered blankBoot reversed := by
  intro t j h
  obtain ⟨ht, rfl⟩ := reversed_feedback h
  have hFew := (reversed_tasks t ht).2
  omega

theorem release_safe_reversed :
    Releases blankBoot reversed reversedTask lane 0 8 ∧ ReleaseSafe blankBoot reversed reversedTask := by
  refine ⟨⟨?_, ?_, ?_⟩, release_safe reversed_answers reversed_fewUnanswered⟩ <;> decide +kernel

end OutOfOrder

section Burst

/-- The first feedback of the burst answers its first task, the second one the completion task. -/
def burstTask (t : Nat) : Nat := if t = 259 then 0 else 257

theorem burst_pops (t : Nat) :
    popsAt blankBoot (burst true) lane t =
      ((mpqAt blankBoot (burst true) lane t).valid &&
        (mpqAt blankBoot (burst true) lane t).pops (eventsAt blankBoot (burst true) lane t)) := by
  rw [popsAt, burst_sent]

theorem burst_pops_arriving {t : Nat} (ht : t < 256) : popsAt blankBoot (burst true) lane (t + 1) = true := by
  have hEom : (t == 256) = false := beq_false_of_ne (by omega)
  rw [burst_pops, burst_arriving (Nat.le_of_lt ht), hEom, pops_payload rfl (by simp [fsmState])]
  rfl

theorem burst_head {t : Nat} (ht : t ≤ 256) : headAt blankBoot (burst true) lane (t + 1) = t := by
  induction t with
  | zero => rfl
  | succ t ih => rw [headAt_succ, ih (by omega), burst_pops_arriving (by omega), Bool.toNat_true]

theorem burst_refers {t : Nat} (ht : t ≤ 257) : refersOn blankBoot (burst true) lane (t + 1) = List.range t := by
  induction t with
  | zero => rfl
  | succ t ih =>
    rw [refersOn, window_succ _ (Nat.zero_le _), ← refersOn, ih (by omega), refers, burst_sent,
      burst_arriving (by omega), burst_head (by omega), List.range_succ]
    rfl

theorem burst_refers_succ (t : Nat) :
    refersOn blankBoot (burst true) lane (t + 1) = refersOn blankBoot (burst true) lane t ++
      if (mpqAt blankBoot (burst true) lane t).valid then [headAt blankBoot (burst true) lane t] else [] := by
  rw [refersOn, window_succ _ (Nat.zero_le _), ← refersOn, refers, burst_sent]

theorem burst_head_completion : headAt blankBoot (burst true) lane 260 = 256 := by
  have hLast : popsAt blankBoot (burst true) lane 257 = false := by
    rw [burst_pops, burst_events, burst_arriving (Nat.le_refl 256)]
    decide
  have hDrain : popsAt blankBoot (burst true) lane 258 = false := by rw [burst_pops, burst_drain]; rfl
  have hWait : popsAt blankBoot (burst true) lane 259 = false := by rw [burst_pops, burst_drain_wait]; rfl
  calc
    headAt blankBoot (burst true) lane 260 = headAt blankBoot (burst true) lane 259 :=
      headAt_of_not_pops _ _ lane (t := 259) hWait
    _ = headAt blankBoot (burst true) lane 258 := headAt_of_not_pops _ _ lane (t := 258) hDrain
    _ = headAt blankBoot (burst true) lane 257 := headAt_of_not_pops _ _ lane (t := 257) hLast
    _ = 256 := burst_head (t := 256) (Nat.le_refl 256)

theorem burst_refers_all : refersOn blankBoot (burst true) lane 262 = List.range 257 ++ [256] := by
  have hStart : refersOn blankBoot (burst true) lane 258 = List.range 257 := burst_refers (Nat.le_refl 257)
  have hDrain : refersOn blankBoot (burst true) lane 259 = List.range 257 := by
    rw [burst_refers_succ, burst_drain, hStart]
    exact List.append_nil _
  have hWait : refersOn blankBoot (burst true) lane 260 = List.range 257 := by
    rw [burst_refers_succ, burst_drain_wait, hDrain]
    exact List.append_nil _
  have hCompletion : refersOn blankBoot (burst true) lane 261 = List.range 257 ++ [256] := by
    rw [burst_refers_succ, burst_completion, hWait, burst_head_completion, if_pos (by decide)]
  rw [burst_refers_succ, burst_completionRunning, hCompletion, if_neg (by decide), List.append_nil]

theorem burst_feedbackFor {t k : Nat} {task : HandlerTask}
    (hTask : (tasksOn blankBoot (burst true) lane 0 t)[k]? = some task) :
    ∃ u < t, (grantsOn blankBoot (burst true) lane 0 u).length = k ∧
      (mpqAt blankBoot (burst true) lane u).valid = true ∧
      feedbackFor task = ⟨0, 64, 0, popsAt blankBoot (burst true) lane u⟩ := by
  obtain ⟨u, hut, her, hNumber, hSent, hHer, hAddr, hSize, hMsgid, hTrigger⟩ := taken_packet (burst_arb true) hTask
  refine ⟨u, hut, hNumber, burst_sent true u ▸ hSent, ?_⟩
  obtain ⟨v, _, _, hMem⟩ := mem_window.mp (List.mem_of_getElem? hHer)
  have hEq : her = burstHer v := by
    rw [herOn] at hMem
    split_ifs at hMem
    · exact List.mem_singleton.mp hMem
    · cases hMem
  rw [feedbackFor, hAddr, hSize, hMsgid, hTrigger, hEq]
  rfl

theorem burst_first_task : ∃ task, (tasksOn blankBoot (burst true) lane 0 259)[0]? = some task ∧
    feedbackFor task = ⟨0, 64, 0, true⟩ := by
  have hPipe := pipeline_length blankBoot (burst true) lane 259
  have hPending := length_pending_le blankBoot (burst true) lane 259
  rw [burst_grants_draining] at hPipe
  have hTask : (tasksOn blankBoot (burst true) lane 0 259)[0]? = some _ := List.getElem?_eq_getElem (by omega)
  obtain ⟨u, hu, hNumber, hValid, hFor⟩ := burst_feedbackFor hTask
  have hFirst : u = 1 := by
    rcases u with _ | u
    · cases hValid
    · have hLe : u ≤ 257 := by omega
      rw [burst_grants hLe] at hNumber
      omega
  rw [hFirst, burst_pops_arriving (by omega)] at hFor
  exact ⟨_, hTask, hFor⟩

theorem burst_completion_task : ∃ task, (tasksOn blankBoot (burst true) lane 0 262)[257]? = some task ∧
    feedbackFor task = ⟨0, 64, 0, true⟩ := by
  obtain ⟨hEmits, hBefore⟩ := burst_emits_completion
  have hLength : 257 < (tasksOn blankBoot (burst true) lane 0 262).length := by
    rw [tasksOn, window_succ _ (by omega), List.length_append, ← tasksOn, hBefore]
    exact Nat.lt_add_of_pos_right (List.length_pos_of_ne_nil hEmits)
  have hTask := List.getElem?_eq_getElem hLength
  obtain ⟨u, hu, hNumber, hValid, hFor⟩ := burst_feedbackFor hTask
  have hLast : u = 260 := by
    rcases u with _ | u
    · cases hValid
    · rcases Nat.lt_or_ge u 257 with hLt | hGe
      · rw [burst_grants (Nat.le_of_lt hLt)] at hNumber
        omega
      · have hCases : u = 257 ∨ u = 258 ∨ u = 259 ∨ u = 260 := by omega
        rcases hCases with rfl | rfl | rfl | rfl
        · rw [burst_drain] at hValid
          cases hValid
        · rw [burst_drain_wait] at hValid
          cases hValid
        · rfl
        · rw [burst_completionRunning] at hValid
          cases hValid
  rw [hLast, burst_pops, burst_completion, pops_completion rfl] at hFor
  exact ⟨_, hTask, hFor⟩

theorem burst_answers : Answers blankBoot (burst true) burstTask where
  arb := burst_arb true
  feedback t j h := by
    obtain ⟨ht, rfl⟩ := burst_feedback h
    rcases ht with rfl | rfl
    · obtain ⟨task, hTask, hFor⟩ := burst_first_task
      exact ⟨task, hTask, hFor.symm⟩
    · obtain ⟨task, hTask, hFor⟩ := burst_completion_task
      exact ⟨task, hTask, hFor.symm⟩
  once t u j ht hu hSame := by
    rcases (burst_feedback ht).1 with rfl | rfl <;> rcases (burst_feedback hu).1 with rfl | rfl
    · rfl
    · cases hSame
    · cases hSame
    · rfl

/-- In the burst of 257 packets the buffer of the last packet is released by the completion task while
its payload task is unanswered. -/
theorem burst_releases_early :
    Answers blankBoot (burst true) burstTask ∧ Releases blankBoot (burst true) burstTask lane 256 262 ∧
      ¬ ReleaseSafe blankBoot (burst true) burstTask := by
  have hRelease : Releases blankBoot (burst true) burstTask lane 256 262 := by
    refine ⟨by decide, by decide, ?_⟩
    rw [burst_refers_all]
    rfl
  refine ⟨burst_answers, hRelease, fun hSafe => ?_⟩
  obtain ⟨task, hTask, _⟩ := burst_completion_task
  have hTaken := (List.getElem?_eq_some_iff.mp hTask).1
  have hRefers : (refersOn blankBoot (burst true) lane 262)[256]? = some 256 := by
    rw [burst_refers_all, List.getElem?_append_left (by simp), List.getElem?_range (by omega)]
  obtain ⟨u, hu, hFeedback, hWhich⟩ := hSafe.answered lane 256 262 256 hRelease (by omega) hRefers (by decide)
  rcases (burst_feedback hFeedback).1 with rfl | rfl
  · cases hWhich
  · omega

end Burst

end FPsPIN.MpqEngine
