import FPsPIN.MpqEngine.Message

/-!
# The ordering contract of the mpq_engine

A message occupies its MPQ from the HER that finds it free until it is free
again. When the messages of an MPQ are kept apart, its tasks leave in the
order of the contract: header, payloads in arrival order, completion. The
contract rests on in_flight, an eight-bit register: it is kept as long as no
feedback arrives while more than 255 tasks of the MPQ are unanswered, and a
burst of 257 packets shows that it can fail beyond.
-/

namespace FPsPIN.MpqEngine

open Config Run

section Runs

variable {p : Params} (b : Boot) (inputs : Nat → Input p)

/-- After an EOM no HER is accepted for the MPQ before it is back in Free. -/
def MessagesApart : Prop := ∀ j t u, t < u →
  (∃ her ∈ herOn (runAt b inputs t) (inputs t) j, her.eom = true) →
  herOn (runAt b inputs u) (inputs u) j ≠ [] →
  ∃ v, t < v ∧ v ≤ u ∧ (mpqAt b inputs j v).state = .free

/-- MPQ j serves one message from cycle start until it is free again in cycle finish. -/
structure IsMessage (j : Index p) (start finish : Nat) : Prop where
  lt : start < finish
  free : (mpqAt b inputs j start).state = .free
  her : herOn (runAt b inputs start) (inputs start) j ≠ []
  busy : ∀ t, start < t → t < finish → (mpqAt b inputs j t).state ≠ .free
  freeAgain : (mpqAt b inputs j finish).state = .free

/-- The tasks taken for a message are its header, payload and completion tasks in this order; with a
header handler no later task leaves before a feedback, and the completion task leaves after the
feedbacks of all earlier tasks. -/
def OrderedMessage (j : Index p) (start finish : Nat) : Prop :=
  ∃ first front last, (hersOn b inputs j start finish).head? = some first ∧
    Closed (hersOn b inputs j start finish) front last ∧
    tasksOn b inputs j start finish = messageTasks j first front last ∧
    (∀ u, start ≤ u → u < finish → onMpq j (emits (runAt b inputs u) (inputs u)) ≠ [] →
      hasHh first = true → 1 ≤ (tasksOn b inputs j start u).length →
      1 ≤ (feedbacksOn inputs j start u).length) ∧
    (∀ u, start ≤ u → u < finish → onMpq j (emits (runAt b inputs u) (inputs u)) ≠ [] →
      hasTh first = true →
      (tasksOn b inputs j start u).length + 1 = (messageTasks j first front last).length →
      (tasksOn b inputs j start u).length ≤ (feedbacksOn inputs j start u).length)

variable {b inputs}

theorem run_eomOk (j : Index p) (t : Nat) : (mpqAt b inputs j t).EomOk := by
  induction t with
  | zero =>
    refine ⟨fun _ => rfl, fun h => ?_⟩
    rcases h with h | h | h <;> cases h
  | succ t ih =>
    rw [mpqAt_succ]
    exact ih.next _

theorem herOn_eq_newHers (j : Index p) (t : Nat) :
    herOn (runAt b inputs t) (inputs t) j = newHers (eventsAt b inputs j t) (inputs t).her := rfl

theorem exists_eom_of_eomSeen (j : Index p) (t : Nat) (hSeen : (mpqAt b inputs j t).eomSeen = true) :
    ∃ u < t, (∃ her ∈ herOn (runAt b inputs u) (inputs u) j, her.eom = true) ∧
      ∀ v, u < v → v ≤ t → (mpqAt b inputs j v).state ≠ .free := by
  induction t with
  | zero => cases hSeen
  | succ t ih =>
    have hBusy : (mpqAt b inputs j (t + 1)).state ≠ .free := fun hFree => by
      rw [(run_eomOk j (t + 1)).free hFree] at hSeen
      cases hSeen
    have hLast : ∀ u v, u < v → v ≤ t + 1 →
      (∀ w, u < w → w ≤ t → (mpqAt b inputs j w).state ≠ .free) →
        (mpqAt b inputs j v).state ≠ .free := by
      intro u v huv hv hBefore
      rcases Nat.le_succ_iff.mp hv with hv | rfl
      · exact hBefore v huv hv
      · exact hBusy
    rw [mpqAt_succ, next_eomSeen _ _ (run_eomOk j t).free] at hSeen
    rw [mpqAt_succ, next_state] at hBusy
    rw [beq_false_of_ne hBusy, if_neg Bool.false_ne_true, Bool.or_eq_true] at hSeen
    rcases hSeen with hSeen | hSeen
    · obtain ⟨u, hu, hEom, hBefore⟩ := ih hSeen
      exact ⟨u, Nat.lt_succ_of_lt hu, hEom, fun v huv hv => hLast u v huv hv hBefore⟩
    · rw [Bool.and_eq_true] at hSeen
      refine ⟨t, Nat.lt_succ_self t, ⟨(inputs t).her, ?_, hSeen.2⟩, fun v huv hv =>
        hLast t v huv hv (fun w htw hwt => absurd htw (Nat.not_lt_of_le hwt))⟩
      rw [herOn_eq_newHers, newHers, if_pos hSeen.1]
      exact List.mem_singleton_self _

theorem MessagesApart.quiet (h : MessagesApart b inputs) (j : Index p) (t : Nat)
    (hHer : (eventsAt b inputs j t).herNew = true) : (mpqAt b inputs j t).eomSeen = false := by
  by_contra hSeen
  rw [Bool.not_eq_false] at hSeen
  obtain ⟨u, hut, hEom, hBusy⟩ := exists_eom_of_eomSeen j t hSeen
  have hOn : herOn (runAt b inputs t) (inputs t) j ≠ [] := by
    rw [herOn_eq_newHers, newHers, if_pos hHer]
    exact List.cons_ne_nil _ _
  obtain ⟨v, huv, hvt, hFree⟩ := h j u t hut hEom hOn
  exact hBusy v huv hvt hFree

theorem MessagesApart.admissible (h : MessagesApart b inputs) (j : Index p) (t : Nat) :
    Admissible (mpqAt b inputs j t) (eventsAt b inputs j t) := by
  intro hHer
  have hSeen := h.quiet j t hHer
  constructor
  · intro hClosing
    rw [(run_eomOk j t).closing hClosing] at hSeen
    cases hSeen
  · rintro ⟨_, _, hEom, _⟩
    rw [hEom] at hSeen
    cases hSeen

theorem packetsAt_succ_eq (j : Index p) (t : Nat) :
    packetsAt b inputs (t + 1) j =
      nextQueue (mpqAt b inputs j t) (eventsAt b inputs j t) (inputs t).her (packetsAt b inputs t j) :=
  abstractStep_fifoInput (runAt b inputs t) (inputs t) (packetsAt b inputs t) j

theorem hersOn_length_le (j : Index p) {a c d : Nat} (hac : a ≤ c) (hcd : c ≤ d) :
    (hersOn b inputs j a c).length ≤ (hersOn b inputs j a d).length := by
  rw [hersOn, hersOn, ← window_append _ hac hcd, List.length_append]
  exact Nat.le_add_right _ _

theorem metaMem_busy {j : Index p} {t : Nat} (hBusy : (mpqAt b inputs j t).state ≠ .free) :
    (runAt b inputs (t + 1)).metaMem j = (runAt b inputs t).metaMem j := by
  rw [runAt_succ, metaMem_step, if_neg]
  rintro ⟨hWrite, rfl⟩
  simp only [mpqmetaWrite, Bool.and_eq_true, beq_iff_eq] at hWrite
  exact hBusy hWrite.2

theorem grants_of_sent {j : Index p} {t : Nat}
    (hRefines : FifoEngine.Refines (runAt b inputs t).fifo (packetsAt b inputs t))
    (hSent : (eventsAt b inputs j t).taskSent = true) {pkt : MpqPkt} {rest : List MpqPkt}
    (hQueue : packetsAt b inputs t j = pkt :: rest) :
    onMpq j (grants (runAt b inputs t) (inputs t)) =
      [newTask (mpqAt b inputs j t).state ((runAt b inputs t).metaMem j) pkt
        ((mpqAt b inputs j t).pops (eventsAt b inputs j t)) j] := by
  simp only [eventsAt] at hSent
  rw [onMpq_grants, hSent, if_pos rfl]
  simp only [eventsOn, Bool.and_eq_true, beq_iff_eq] at hSent
  obtain ⟨hGrant, rfl⟩ := hSent
  have hHead := hRefines.dataO_step (i := fifoInput (runAt b inputs t) (inputs t))
    (by change packetsAt b inputs t (tasksentMpqIdx (inputs t)) ≠ []; rw [hQueue]; exact List.cons_ne_nil _ _)
  change packetsAt b inputs t (tasksentMpqIdx (inputs t)) =
    (runAt b inputs t).fifo.fifoData ((runAt b inputs t).fifo.fifoHead (tasksentMpqIdx (inputs t))) :: _ at hHead
  rw [hQueue] at hHead
  rw [grantedTask, ← (List.cons.inj hHead).1, fifoPop_eq, hGrant]
  rfl

section Environment

variable (hEnv : Environment b inputs) (hFew : FewUnanswered b inputs)
include hEnv hFew

theorem outstandingAt_free {j : Index p} {t : Nat} (hFree : (mpqAt b inputs j t).state = .free) :
    outstandingAt b inputs t j = 0 := by
  have hOut := (run_mpqBook hEnv hFew j t).outstanding
  rwa [Mpq.Outstanding, hFree] at hOut

theorem pending_free {j : Index p} {t : Nat} (hFree : (mpqAt b inputs j t).state = .free) :
    onMpq j (pending (runAt b inputs t)) = [] := by
  have hOut := outstandingAt_free hEnv hFew hFree
  have hPipe := pipeline_length b inputs j t
  have hLe := hEnv.feedbacks_le j t
  rw [outstandingAt] at hOut
  exact List.length_eq_zero_iff.mp (by omega)

theorem packetsAt_free (hApart : MessagesApart b inputs) {j : Index p} {t : Nat}
    (hFree : (mpqAt b inputs j t).state = .free) : packetsAt b inputs t j = [] := by
  have hNot := not_stranded_of_admissible hEnv hFew j (fun u (_ : u < t) => hApart.admissible j u)
  have hLength : (mpqAt b inputs j t).length = 0 :=
    Nat.eq_zero_of_not_pos (fun hOne => hNot ⟨Or.inl hFree, hOne⟩)
  have hHeld := (run_mpqBook hEnv hFew j t).held
  rw [Mpq.held, hLength, hFree, if_neg (by simp)] at hHeld
  exact List.length_eq_zero_iff.mp hHeld

theorem outstandingAt_window {j : Index p} {a t : Nat} (hat : a ≤ t)
    (hFree : (mpqAt b inputs j a).state = .free) :
    outstandingAt b inputs t j + (feedbacksOn inputs j a t).length = (grantsOn b inputs j a t).length := by
  have hOut := outstandingAt_free hEnv hFew hFree
  have hLeA := hEnv.feedbacks_le j a
  have hPipeA := pipeline_length b inputs j a
  have hLeT := hEnv.feedbacks_le j t
  have hPipeT := pipeline_length b inputs j t
  have hGrants : (grantsOn b inputs j 0 t).length =
      (grantsOn b inputs j 0 a).length + (grantsOn b inputs j a t).length := by
    rw [← List.length_append, grantsOn, grantsOn, grantsOn, window_append _ (Nat.zero_le a) hat]
  have hFeedbacks : (feedbacksOn inputs j 0 t).length =
      (feedbacksOn inputs j 0 a).length + (feedbacksOn inputs j a t).length := by
    rw [← List.length_append, feedbacksOn, feedbacksOn, feedbacksOn, window_append _ (Nat.zero_le a) hat]
  unfold outstandingAt at *
  omega

theorem laneCycle_run (hApart : MessagesApart b inputs) (j : Index p) (t : Nat) (first : HerDescr)
    (hMeta : (runAt b inputs t).metaMem j = first.mpqMeta) :
    LaneCycle j first (mpqAt b inputs j t) (packetsAt b inputs t j) (eventsAt b inputs j t) (inputs t).her
      (onMpq j (grants (runAt b inputs t) (inputs t))) where
  isEom := rfl
  quiet := hApart.quiet j t
  idle hIdle := by
    rw [eventsAt] at hIdle
    rw [onMpq_grants, hIdle, if_neg Bool.false_ne_true]
  grant hSent pkt rest hQueue := by
    rw [grants_of_sent (run_book hEnv hFew t).refines hSent hQueue, hMeta]

theorem grants_of_emits {j : Index p} {start u : Nat} (hsu : start ≤ u)
    (hFree : (mpqAt b inputs j start).state = .free)
    (hEmits : onMpq j (emits (runAt b inputs u) (inputs u)) ≠ []) :
    (grantsOn b inputs j start u).length = (tasksOn b inputs j start u).length + 1 := by
  have hPipe := congrArg List.length (pipeline_window b inputs j hsu)
  rw [pending_free hEnv hFew hFree, List.nil_append, List.length_append] at hPipe
  have hSome : onMpq j (pending (runAt b inputs u)) ≠ [] := by
    intro hNil
    apply hEmits
    rw [emits]
    rw [pending] at hNil
    cases hValid : taskValid (runAt b inputs u) <;> cases hReady : (inputs u).taskReady <;>
      simp_all [onMpq]
  have hOne := length_pending_le b inputs j u
  have hPos := List.length_pos_of_ne_nil hSome
  omega

end Environment

section Message

variable (hEnv : Environment b inputs) (hFew : FewUnanswered b inputs) (hApart : MessagesApart b inputs)
include hEnv hFew hApart

theorem progress_start {j : Index p} {t : Nat} (hFree : (mpqAt b inputs j t).state = .free)
    (hHer : (eventsAt b inputs j t).herNew = true) :
    (runAt b inputs (t + 1)).metaMem j = (inputs t).her.mpqMeta ∧
      Progress j (inputs t).her (mpqAt b inputs j (t + 1)) (packetsAt b inputs (t + 1) j)
        (hersOn b inputs j t (t + 1)) (grantsOn b inputs j t (t + 1))
        (feedbacksOn inputs j t (t + 1)).length := by
  have hOk := run_laneOk hEnv hFew j t
  have hSent : (eventsAt b inputs j t).taskSent = false := hOk.not_sent (by simp [Mpq.valid, hFree])
  have hFeedback : (eventsAt b inputs j t).feedback = false := by
    by_contra hNew
    have hOne := (hOk.feedback (by simpa using hNew)).1
    rw [outstandingAt_free hEnv hFew hFree] at hOne
    omega
  constructor
  · have hAccepted : herNew (runAt b inputs t) (inputs t) = true ∧ newherMpqIdx (inputs t) = j := by
      simpa [eventsAt, eventsOn] using hHer
    obtain ⟨hNew, rfl⟩ := hAccepted
    have hWrite : mpqmetaWrite (runAt b inputs t) (inputs t) = true := by
      rw [mpqAt] at hFree
      simp [mpqmetaWrite, hNew, hFree]
    rw [runAt_succ, metaMem_step, if_pos ⟨hWrite, rfl⟩]
  · have hQueue : packetsAt b inputs (t + 1) j = [newPkt (inputs t).her] := by
      rw [packetsAt_succ_eq, packetsAt_free hEnv hFew hApart hFree, nextQueue, newHers, hHer, hSent]
      rfl
    have hHers : hersOn b inputs j t (t + 1) = [(inputs t).her] := by
      rw [hersOn, window_succ _ (Nat.le_refl t), window_self, herOn_eq_newHers, newHers, hHer]
      rfl
    have hGrants : grantsOn b inputs j t (t + 1) = [] := by
      rw [eventsAt] at hSent
      rw [grantsOn, window_succ _ (Nat.le_refl t), window_self, onMpq_grants, hSent]
      rfl
    have hFeedbacks : (feedbacksOn inputs j t (t + 1)).length = 0 := by
      rw [eventsAt] at hFeedback
      rw [feedbacksOn, window_succ _ (Nat.le_refl t), window_self, List.nil_append,
        length_feedbackOn (runAt b inputs t), hFeedback]
      rfl
    rw [hQueue, hHers, hGrants, hFeedbacks, mpqAt_succ]
    exact Progress.start hFree (run_eomOk j t) hHer rfl rfl rfl

theorem progress_run {j : Index p} {start finish : Nat} (hMsg : IsMessage b inputs j start finish)
    {t : Nat} (hStart : start < t) (hFinish : t ≤ finish) :
    (runAt b inputs t).metaMem j = (inputs start).her.mpqMeta ∧
      Progress j (inputs start).her (mpqAt b inputs j t) (packetsAt b inputs t j)
        (hersOn b inputs j start t) (grantsOn b inputs j start t)
        (feedbacksOn inputs j start t).length := by
  obtain ⟨d, rfl⟩ := Nat.exists_eq_add_of_le (Nat.succ_le_of_lt hStart)
  induction d with
  | zero =>
    refine progress_start hEnv hFew hApart hMsg.free ?_
    have hHer := hMsg.her
    rw [herOn_eq_newHers, newHers] at hHer
    by_contra hNone
    rw [if_neg hNone] at hHer
    exact hHer rfl
  | succ d ih =>
    obtain ⟨hMeta, hProgress⟩ := ih (by omega) (by omega)
    have hBusy := hMsg.busy (start + 1 + d) (by omega) (by omega)
    have hCycle := laneCycle_run hEnv hFew hApart j (start + 1 + d) (inputs start).her hMeta
    refine ⟨(metaMem_busy hBusy).trans hMeta, ?_⟩
    have hNext := hProgress.next hBusy (run_mpqBook hEnv hFew j _) (run_laneOk hEnv hFew j _) hCycle
      (run_eomOk j _)
    rw [← mpqAt_succ, ← packetsAt_succ_eq, ← herOn_eq_newHers, eventsAt,
      ← length_feedbackOn (runAt b inputs (start + 1 + d)), ← List.length_append] at hNext
    rw [← Nat.add_assoc, hersOn, grantsOn, feedbacksOn, window_succ _ (by omega), window_succ _ (by omega),
      window_succ _ (by omega)]
    exact hNext

/-- With a header handler, the second task of a message leaves after a feedback. -/
theorem header_before_payload {j : Index p} {start finish : Nat} (hMsg : IsMessage b inputs j start finish)
    {u : Nat} (hsu : start < u) (huf : u < finish) (hHh : hasHh (inputs start).her = true)
    (hTwo : 2 ≤ (grantsOn b inputs j start u).length) : 1 ≤ (feedbacksOn inputs j start u).length := by
  have hPhase := (progress_run hEnv hFew hApart hMsg hsu huf.le).2.phase
  have hOut := (run_mpqBook hEnv hFew j u).outstanding
  have hWindow := outstandingAt_window hEnv hFew hsu.le hMsg.free
  rw [Mpq.Outstanding] at hOut
  cases hState : (mpqAt b inputs j u).state <;> rw [hState] at hPhase hOut <;> simp only at hOut
  · exact absurd hState (hMsg.busy u hsu huf)
  · rw [hPhase.2.2] at hTwo
    simp at hTwo
  · rw [hPhase.2.2, headerTasks, if_pos hHh] at hTwo
    simp at hTwo
  · exact hPhase.1 hHh
  · exact hPhase.1 hHh
  · omega
  · omega

/-- Once as many tasks are granted as a message with a completion handler has, all earlier ones are answered. -/
theorem completion_after_payloads {j : Index p} {start finish : Nat}
    (hMsg : IsMessage b inputs j start finish) {u : Nat} (hsu : start < u) (huf : u < finish)
    (hAll : (headerTasks j (inputs start).her).length + (hersOn b inputs j start finish).length <
      (grantsOn b inputs j start u).length) :
    (grantsOn b inputs j start u).length ≤ (feedbacksOn inputs j start u).length + 1 := by
  have hPhase := (progress_run hEnv hFew hApart hMsg hsu huf.le).2.phase
  have hOut := (run_mpqBook hEnv hFew j u).outstanding
  have hWindow := outstandingAt_window hEnv hFew hsu.le hMsg.free
  have hHers : (hersOn b inputs j start u).length ≤ (hersOn b inputs j start finish).length :=
    hersOn_length_le j hsu.le huf.le
  rw [Mpq.Outstanding] at hOut
  cases hState : (mpqAt b inputs j u).state <;> rw [hState] at hPhase hOut <;> simp only at hOut
  · exact absurd hState (hMsg.busy u hsu huf)
  · omega
  · omega
  · obtain ⟨_, done, waiting, hSplit, _, hGranted⟩ := hPhase
    rw [hSplit] at hHers
    rw [hGranted, startedTasks] at hAll
    simp only [List.length_append, List.length_map] at hAll hHers
    omega
  · obtain ⟨_, front, last, hClosed, _, hGranted⟩ := hPhase
    rw [hClosed.split] at hHers
    rw [hGranted, drainedTasks_length] at hAll
    simp only [List.length_append, List.length_singleton] at hHers
    omega
  · omega
  · omega

/-- The sPIN ordering contract, for MPQs whose messages are kept apart. -/
theorem mpqEngine_ordering {j : Index p} {start finish : Nat} (hMsg : IsMessage b inputs j start finish) :
    OrderedMessage b inputs j start finish := by
  obtain ⟨_, hProgress⟩ := progress_run hEnv hFew hApart hMsg hMsg.lt (Nat.le_refl finish)
  have hPhase := hProgress.phase
  rw [hMsg.freeAgain] at hPhase
  obtain ⟨front, last, hClosed, hGranted⟩ := hPhase
  have hHers : (hersOn b inputs j start finish).length = front.length + 1 := by
    rw [hClosed.split]
    simp
  have hTasks : tasksOn b inputs j start finish = messageTasks j (inputs start).her front last := by
    have hPipe := pipeline_window b inputs j hMsg.lt.le
    rw [pending_free hEnv hFew hMsg.free, pending_free hEnv hFew hMsg.freeAgain, List.nil_append,
      List.append_nil] at hPipe
    rw [← hPipe, hGranted]
  have hLater : ∀ u, start ≤ u → onMpq j (emits (runAt b inputs u) (inputs u)) ≠ [] → start < u := by
    intro u hsu hEmits
    rcases Nat.lt_or_eq_of_le hsu with hsu | rfl
    · exact hsu
    · have hLength := grants_of_emits hEnv hFew (Nat.le_refl start) hMsg.free hEmits
      rw [grantsOn, window_self] at hLength
      simp at hLength
  refine ⟨(inputs start).her, front, last, hProgress.starts, hClosed, hTasks, ?_, ?_⟩
  · intro u hsu huf hEmits hHh hOne
    have hLength := grants_of_emits hEnv hFew hsu hMsg.free hEmits
    exact header_before_payload hEnv hFew hApart hMsg (hLater u hsu hEmits) huf hHh (by omega)
  · intro u hsu huf hEmits hTh hCount
    have hLength := grants_of_emits hEnv hFew hsu hMsg.free hEmits
    rw [messageTasks, if_pos hTh, List.length_append, drainedTasks_length, List.length_singleton] at hCount
    have hAnswered := completion_after_payloads hEnv hFew hApart hMsg (hLater u hsu hEmits) huf (by omega)
    omega

end Message

theorem packetsAt_of_no_her {j : Index p} (hNone : ∀ t, (eventsAt b inputs j t).herNew = false) (t : Nat) :
    packetsAt b inputs t j = [] := by
  induction t with
  | zero => rfl
  | succ t ih =>
    rw [packetsAt_succ_eq, ih, nextQueue, newHers, hNone t]
    simp

theorem fifoFull_of_single {j : Index p} (hNone : ∀ k ≠ j, ∀ t, (eventsAt b inputs k t).herNew = false)
    {t : Nat} {g : Index p → Nat} (hBook : Book (runAt b inputs t) (packetsAt b inputs t) g)
    (hRoom : (packetsAt b inputs t j).length < p.numHerSlots) (k : Index p) :
    FifoEngine.fifoFull (runAt b inputs t).fifo k = false := by
  by_contra hFull
  have hSum := (hBook.refines.full_spec (Bool.not_eq_false _ ▸ hFull)).2
  rw [Finset.sum_eq_single j (fun k _ hk => by rw [packetsAt_of_no_her (hNone k hk)]; rfl)
    (fun hj => absurd (Finset.mem_univ j) hj)] at hSum
  exact absurd hRoom (Nat.not_lt_of_le hSum)

theorem grant_of_ready {s : State p} {i : Input p} (hReady : i.taskReady = true) : grant s i = arbValid s := by
  cases hState : s.stateQ <;> cases hValid : arbValid s <;> simp [grant, arbReady, hState, hValid, hReady]

end Runs

section Burst

def withCompletion : MpqMeta := ⟨0, 0, 0, 0, 0, 0, 1, 0, 2, 0, fun _ => 0, fun _ => 0⟩

def burstHer (t : Nat) : HerDescr := ⟨0, t == 256, 0, 64, 64, withCompletion⟩

/-- One message of 257 packets in the first 257 cycles, each granted one cycle after its arrival; if
answers is set, two feedbacks arrive after all payload tasks have left. -/
def burst (answers : Bool) (t : Nat) : Input deployed where
  herValid := decide (t ≤ 256)
  her := burstHer t
  feedbackValid := answers && (t == 259 || t == 262)
  feedback := ⟨0, 64, 0, true⟩
  taskReady := true
  nicFeedbackReady := true
  mpqArbIdx := ⟨0, deployed.numMpq_pos⟩

def lane : Index deployed := ⟨0, deployed.numMpq_pos⟩

theorem burst_other_lanes (answers : Bool) : ∀ k ≠ lane, ∀ t,
    (eventsAt blankBoot (burst answers) k t).herNew = false := by
  intro k hk t
  have hIdx : newherMpqIdx (burst answers t) = lane := rfl
  simp only [eventsAt, eventsOn, hIdx, Bool.and_eq_false_iff]
  exact Or.inr (beq_false_of_ne (Ne.symm hk))

theorem burst_arb (answers : Bool) (t : Nat) (hValid : arbValid (runAt blankBoot (burst answers) t) = true) :
    ((runAt blankBoot (burst answers) t).mpqQ (burst answers t).mpqArbIdx).valid = true :=
  arb_of_single lane (fun _ => rfl) (fun _ => rfl) t hValid

theorem silent_feedbackOn (t : Nat) (j : Index deployed) : feedbackOn (burst false t) j = [] := rfl

theorem silent_environment : Environment blankBoot (burst false) :=
  ⟨burst_arb false, fun t j h => absurd (silent_feedbackOn t j) h⟩

theorem silent_fewUnanswered : FewUnanswered blankBoot (burst false) :=
  fun t j h => absurd (silent_feedbackOn t j) h

theorem burst_sent (answers : Bool) (t : Nat) :
    (eventsAt blankBoot (burst answers) lane t).taskSent = (mpqAt blankBoot (burst answers) lane t).valid := by
  have hIdx : tasksentMpqIdx (burst answers t) = lane := rfl
  have hArb : arbValid (runAt blankBoot (burst answers) t) =
      (mpqAt blankBoot (burst answers) lane t).valid := by
    rw [Bool.eq_iff_iff]
    exact ⟨burst_arb answers t, fun h => decide_eq_true ⟨lane, h⟩⟩
  simp only [eventsAt, eventsOn, hIdx, BEq.rfl, Bool.and_true]
  rw [grant_of_ready rfl, hArb]

theorem eventsAt_burst (answers : Bool) (t : Nat)
    (hRoom : t ≤ 256 → FifoEngine.fifoFull (runAt blankBoot (burst answers) t).fifo lane = false) :
    eventsAt blankBoot (burst answers) lane t =
      ⟨decide (t ≤ 256), (mpqAt blankBoot (burst answers) lane t).valid,
        answers && (t == 259 || t == 262), false, true, t == 256⟩ := by
  have hSent := burst_sent answers t
  have hHer : (eventsAt blankBoot (burst answers) lane t).herNew = decide (t ≤ 256) := by
    have hIdx : newherMpqIdx (burst answers t) = lane := rfl
    simp only [eventsAt, eventsOn, hIdx, herNew, herReady, BEq.rfl, Bool.and_true]
    by_cases ht : t ≤ 256
    · simp [burst, ht, hRoom ht]
    · simp [burst, ht]
  have hFeedback : (eventsAt blankBoot (burst answers) lane t).feedback =
      (answers && (t == 259 || t == 262)) := by
    have hIdx : feedbackMpqIdx (burst answers t) = lane := rfl
    simp only [eventsAt, eventsOn, hIdx, feedbackNew, BEq.rfl, Bool.and_true]
    simp [burst]
  rw [← hSent, ← hHer, ← hFeedback]
  rfl

theorem silent_room {t : Nat} (hHeld : (mpqAt blankBoot (burst false) lane t).held ≤ 1) :
    FifoEngine.fifoFull (runAt blankBoot (burst false) t).fifo lane = false := by
  have hBook := run_book silent_environment silent_fewUnanswered t
  refine fifoFull_of_single (burst_other_lanes false) hBook ?_ lane
  have hLength := (hBook.mpq lane).held
  rw [mpqAt] at hHeld
  rw [hLength]
  exact Nat.lt_of_le_of_lt hHeld (by decide)

theorem silent_lane {t : Nat} (ht : t ≤ 256) :
    mpqAt blankBoot (burst false) lane (t + 1) = ⟨.payload, 1, t % 256, true, t == 256⟩ := by
  induction t with
  | zero =>
    have hInit : mpqAt blankBoot (burst false) lane 0 = ⟨.free, 0, 0, false, false⟩ := rfl
    have hRoom := silent_room (t := 0) (by rw [hInit]; decide)
    rw [mpqAt_succ, eventsAt_burst false 0 (fun _ => hRoom), hInit]
    rfl
  | succ t ih =>
    have hNow := ih (by omega)
    have hEom : (t == 256) = false := beq_false_of_ne (by omega)
    rw [hEom] at hNow
    have hRoom := silent_room (t := t + 1) (by rw [hNow]; simp [Mpq.held])
    rw [mpqAt_succ, eventsAt_burst false (t + 1) (fun _ => hRoom), hNow]
    simp [Mpq.next, fsmUpdate, mpqFsm, fsmState, count, counterRange, Mpq.valid, ht]

theorem runAt_burst {t : Nat} (ht : t ≤ 259) :
    runAt blankBoot (burst true) t = runAt blankBoot (burst false) t := by
  refine stateAt_congr (fun u hu => ?_)
  have hNone : (u == 259 || u == 262) = false := by
    simp only [Bool.or_eq_false_iff, beq_eq_false_iff_ne]
    omega
  rw [burst, burst, hNone]
  rfl

theorem burst_arriving {t : Nat} (ht : t ≤ 256) :
    mpqAt blankBoot (burst true) lane (t + 1) = ⟨.payload, 1, t % 256, true, t == 256⟩ := by
  rw [mpqAt, runAt_burst (by omega)]
  exact silent_lane ht

theorem burst_events (t : Nat) :
    eventsAt blankBoot (burst true) lane t =
      ⟨decide (t ≤ 256), (mpqAt blankBoot (burst true) lane t).valid, t == 259 || t == 262,
        false, true, t == 256⟩ := by
  refine eventsAt_burst true t (fun ht => ?_)
  rw [runAt_burst (by omega)]
  apply silent_room
  cases t with
  | zero => decide
  | succ t =>
    rw [silent_lane (by omega)]
    simp [Mpq.held]

theorem burst_drain : mpqAt blankBoot (burst true) lane 258 = ⟨.payloadDraining, 0, 1, true, true⟩ := by
  rw [mpqAt_succ, burst_events, burst_arriving (Nat.le_refl 256)]
  rfl

theorem burst_drain_wait : mpqAt blankBoot (burst true) lane 259 = ⟨.payloadDraining, 0, 1, true, true⟩ := by
  rw [mpqAt_succ, burst_events, burst_drain]
  rfl

theorem burst_completion : mpqAt blankBoot (burst true) lane 260 = ⟨.completion, 0, 0, true, true⟩ := by
  rw [mpqAt_succ, burst_events, burst_drain_wait]
  rfl

theorem burst_completionRunning :
    mpqAt blankBoot (burst true) lane 261 = ⟨.completionRunning, 0, 1, true, true⟩ := by
  rw [mpqAt_succ, burst_events, burst_completion]
  rfl

theorem burst_completion_wait :
    mpqAt blankBoot (burst true) lane 262 = ⟨.completionRunning, 0, 1, true, true⟩ := by
  rw [mpqAt_succ, burst_events, burst_completionRunning]
  rfl

theorem burst_free : mpqAt blankBoot (burst true) lane 263 = ⟨.free, 0, 0, true, false⟩ := by
  rw [mpqAt_succ, burst_events, burst_completion_wait]
  rfl

theorem burst_grants_succ (t : Nat) :
    (grantsOn blankBoot (burst true) lane 0 (t + 1)).length =
      (grantsOn blankBoot (burst true) lane 0 t).length +
        (mpqAt blankBoot (burst true) lane t).valid.toNat := by
  rw [grantsOn, window_succ _ (Nat.zero_le t), List.length_append, length_grantsOn, ← grantsOn,
    ← burst_sent]
  rfl

theorem burst_grants {t : Nat} (ht : t ≤ 257) :
    (grantsOn blankBoot (burst true) lane 0 (t + 1)).length = t := by
  induction t with
  | zero =>
    rw [burst_grants_succ]
    rfl
  | succ t ih =>
    rw [burst_grants_succ, ih (by omega), burst_arriving (by omega)]
    rfl

theorem burst_grants_draining : (grantsOn blankBoot (burst true) lane 0 259).length = 257 := by
  have hSucc := burst_grants_succ 258
  have hBefore : (grantsOn blankBoot (burst true) lane 0 258).length = 257 := burst_grants (Nat.le_refl 257)
  rw [hBefore, burst_drain] at hSucc
  exact hSucc

theorem burst_grants_completion : (grantsOn blankBoot (burst true) lane 0 261).length = 258 := by
  have hWait := burst_grants_succ 259
  rw [burst_grants_draining, burst_drain_wait] at hWait
  have hSucc := burst_grants_succ 260
  have hBefore : (grantsOn blankBoot (burst true) lane 0 260).length = 257 := hWait
  rw [hBefore, burst_completion] at hSucc
  exact hSucc

theorem burst_feedback {t : Nat} {j : Index deployed} (h : feedbackOn (burst true t) j ≠ []) :
    (t = 259 ∨ t = 262) ∧ j = lane := by
  have hIdx : feedbackMpqIdx (burst true t) = lane := rfl
  simp only [feedbackOn, hIdx, feedbackNew, ne_eq, ite_eq_right_iff, Bool.and_eq_true, beq_iff_eq] at h
  push Not at h
  refine ⟨?_, h.1.2.symm⟩
  simpa [burst] using h.1.1

theorem burst_feedbacks {t : Nat} (ht : t ≤ 259) : feedbacksOn (burst true) lane 0 t = [] := by
  refine window_eq_nil (fun u _ hu => ?_)
  by_contra hSome
  have hCases := (burst_feedback hSome).1
  omega

theorem burst_feedbacks_first : (feedbacksOn (burst true) lane 0 261).length = 1 := by
  have hNone : feedbackOn (burst true 260) lane = [] := rfl
  have hOne : (feedbackOn (burst true 259) lane).length = 1 := rfl
  rw [feedbacksOn, window_succ _ (by omega), window_succ _ (by omega), ← feedbacksOn,
    burst_feedbacks (Nat.le_refl 259),
    List.length_append, List.length_append, hNone, hOne]
  rfl

theorem burst_feedbacks_beforeSecond : (feedbacksOn (burst true) lane 0 262).length = 1 := by
  have hNone : feedbackOn (burst true 261) lane = [] := rfl
  rw [feedbacksOn, window_succ _ (by omega), ← feedbacksOn, List.length_append, burst_feedbacks_first, hNone]
  rfl

theorem burst_environment : Environment blankBoot (burst true) where
  arb := burst_arb true
  feedback t j h := by
    obtain ⟨ht, rfl⟩ := burst_feedback h
    have hPipe := pipeline_length blankBoot (burst true) lane t
    have hPending := length_pending_le blankBoot (burst true) lane t
    rcases ht with rfl | rfl
    · rw [burst_grants_draining] at hPipe
      rw [burst_feedbacks (Nat.le_refl 259), List.length_nil]
      omega
    · rw [burst_grants_succ, burst_grants_completion] at hPipe
      rw [burst_feedbacks_beforeSecond]
      omega

theorem burst_herOn (t : Nat) (j : Index deployed)
    (h : herOn (runAt blankBoot (burst true) t) (burst true t) j ≠ []) :
    t ≤ 256 := by
  by_contra ht
  have hNone : (burst true t).herValid = false := decide_eq_false ht
  simp [herOn, herNew, hNone] at h

theorem burst_apart : MessagesApart blankBoot (burst true) := by
  rintro j t u htu ⟨her, hMem, hEom⟩ hHer
  have hu := burst_herOn u j hHer
  have hEq : her = burstHer t := by
    rw [herOn] at hMem
    split_ifs at hMem
    · exact List.mem_singleton.mp hMem
    · cases hMem
  rw [hEq] at hEom
  have ht : t = 256 := by simpa [burstHer] using hEom
  omega

theorem burst_isMessage : IsMessage blankBoot (burst true) lane 0 263 where
  lt := by omega
  free := rfl
  her := by
    rw [herOn_eq_newHers, newHers, burst_events]
    exact List.cons_ne_nil _ _
  busy t hPos hLt := by
    obtain ⟨t, rfl⟩ := Nat.exists_eq_add_of_lt hPos
    rw [Nat.zero_add] at hLt ⊢
    by_cases ht : t ≤ 256
    · rw [burst_arriving ht]
      exact MpqState.noConfusion
    · have hCases : t = 257 ∨ t = 258 ∨ t = 259 ∨ t = 260 ∨ t = 261 := by omega
      rcases hCases with rfl | rfl | rfl | rfl | rfl
      · rw [burst_drain]; decide
      · rw [burst_drain_wait]; decide
      · rw [burst_completion]; decide
      · rw [burst_completionRunning]; decide
      · rw [burst_completion_wait]; decide
  freeAgain := by rw [burst_free]

theorem burst_hers (t : Nat) : (hersOn blankBoot (burst true) lane 0 t).length = min t 257 := by
  induction t with
  | zero => rfl
  | succ t ih =>
    rw [hersOn, window_succ _ (Nat.zero_le t), List.length_append, ← hersOn, ih, herOn_eq_newHers, newHers,
      burst_events]
    by_cases ht : t ≤ 256
    · simp only [ht, decide_true, if_true, List.length_singleton]
      omega
    · simp only [ht, decide_false, Bool.false_eq_true, if_false, List.length_nil]
      omega

theorem burst_emits_completion :
    onMpq lane (emits (runAt blankBoot (burst true) 261) (burst true 261)) ≠ [] ∧
      (tasksOn blankBoot (burst true) lane 0 261).length = 257 := by
  have hSent : (eventsOn (runAt blankBoot (burst true) 260) (burst true 260) lane).taskSent = true := by
    have hSent := burst_sent true 260
    rw [burst_completion] at hSent
    exact hSent
  have hGrant : grant (runAt blankBoot (burst true) 260) (burst true 260) = true := by
    simp only [eventsOn, Bool.and_eq_true] at hSent
    exact hSent.1
  have hPending : onMpq lane (pending (runAt blankBoot (burst true) 261)) =
      [grantedTask (runAt blankBoot (burst true) 260) (burst true 260)] := by
    have hGrants := onMpq_grants (runAt blankBoot (burst true) 260) (burst true 260) lane
    rw [grants, hGrant, hSent, if_pos rfl] at hGrants
    rw [runAt_succ, pending_step, hGrant, if_pos rfl, hGrants]
  have hEmits : emits (runAt blankBoot (burst true) 261) (burst true 261) =
      pending (runAt blankBoot (burst true) 261) := by
    have hReady : (burst true 261).taskReady = true := rfl
    rw [emits, pending, hReady, Bool.and_true]
  have hPipe := pipeline_length blankBoot (burst true) lane 261
  rw [burst_grants_completion, hPending, List.length_singleton] at hPipe
  rw [hEmits, hPending]
  exact ⟨List.cons_ne_nil _ _, by omega⟩

/-- The contract fails for a burst of 257 packets: the completion task is sent after one feedback. -/
theorem burst_breaks_ordering :
    Environment blankBoot (burst true) ∧ MessagesApart blankBoot (burst true) ∧
      IsMessage blankBoot (burst true) lane 0 263 ∧ ¬ OrderedMessage blankBoot (burst true) lane 0 263 := by
  refine ⟨burst_environment, burst_apart, burst_isMessage, ?_⟩
  rintro ⟨first, front, last, hHead, hClosed, _, _, hCompletion⟩
  have hMeta : first.mpqMeta = withCompletion := by
    obtain ⟨t, _, _, hMem⟩ := mem_window.mp (List.mem_of_mem_head? hHead)
    rw [herOn_eq_newHers, newHers] at hMem
    split_ifs at hMem
    · rw [List.mem_singleton.mp hMem]
      rfl
    · cases hMem
  have hHers := burst_hers 263
  rw [hClosed.split, List.length_append, List.length_singleton] at hHers
  have hHh : hasHh first = false := by rw [hasHh, hMeta]; decide
  have hTh : hasTh first = true := by rw [hasTh, hMeta]; decide
  have hAll := hCompletion 261 (by omega) (by omega) burst_emits_completion.1 hTh (by
    rw [burst_emits_completion.2, messageTasks, if_pos hTh, List.length_append, drainedTasks_length,
      headerTasks, hHh]
    simp only [Bool.false_eq_true, if_false, List.length_nil, List.length_singleton]
    omega)
  rw [burst_emits_completion.2, burst_feedbacks_first] at hAll
  omega

end Burst

section Orderly

def allHandlers : MpqMeta := ⟨0, 0, 0, 0, 3, 0, 1, 0, 2, 0, fun _ => 0, fun _ => 0⟩

def orderly (t : Nat) : Input deployed where
  herValid := decide (t ≤ 1)
  her := ⟨0, t == 1, 0, 64, 64, allHandlers⟩
  feedbackValid := t == 3 || t == 7 || t == 8 || t == 11
  feedback := ⟨0, 64, 0, true⟩
  taskReady := true
  nicFeedbackReady := true
  mpqArbIdx := lane

theorem orderly_feedback {t : Nat} {j : Index deployed} (h : feedbackOn (orderly t) j ≠ []) :
    (t = 3 ∨ t = 7 ∨ t = 8 ∨ t = 11) ∧ j = lane := by
  have hIdx : feedbackMpqIdx (orderly t) = lane := rfl
  simp only [feedbackOn, hIdx, feedbackNew, ne_eq, ite_eq_right_iff, Bool.and_eq_true, beq_iff_eq] at h
  push Not at h
  refine ⟨?_, h.1.2.symm⟩
  simpa [orderly, or_assoc] using h.1.1

theorem orderly_counts : ∀ t ∈ [3, 7, 8, 11],
    (feedbacksOn orderly lane 0 t).length < (tasksOn blankBoot orderly lane 0 t).length ∧
      (tasksOn blankBoot orderly lane 0 t).length ≤ 255 := by
  decide +kernel

theorem orderly_environment : Environment blankBoot orderly where
  arb := arb_of_single lane (fun _ => rfl) (fun _ => rfl)
  feedback t j h := by
    obtain ⟨ht, rfl⟩ := orderly_feedback h
    exact (orderly_counts t (by simpa using ht)).1

theorem orderly_fewUnanswered : FewUnanswered blankBoot orderly := by
  intro t j h
  obtain ⟨ht, rfl⟩ := orderly_feedback h
  have hFew := (orderly_counts t (by simpa using ht)).2
  omega

theorem orderly_apart : MessagesApart blankBoot orderly := by
  rintro j t u htu ⟨her, hMem, hEom⟩ hHer
  have hu : u ≤ 1 := by
    by_contra hu
    have hNone : (orderly u).herValid = false := decide_eq_false hu
    simp [herOn, herNew, hNone] at hHer
  have hEq : her = (orderly t).her := by
    rw [herOn] at hMem
    split_ifs at hMem
    · exact List.mem_singleton.mp hMem
    · cases hMem
  rw [hEq] at hEom
  have ht : t = 1 := by simpa [orderly] using hEom
  omega

theorem orderly_busy : ∀ t < 12, 0 < t → (mpqAt blankBoot orderly lane t).state ≠ .free := by
  decide +kernel

theorem orderly_isMessage : IsMessage blankBoot orderly lane 0 12 :=
  ⟨by omega, rfl, by decide +kernel, fun t hPos hLt => orderly_busy t hLt hPos, by decide +kernel⟩

theorem mpqEngine_ordering_orderly : OrderedMessage blankBoot orderly lane 0 12 :=
  mpqEngine_ordering orderly_environment orderly_fewUnanswered orderly_apart orderly_isMessage

end Orderly

end FPsPIN.MpqEngine
