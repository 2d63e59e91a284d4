import FPsPIN.ClusterScheduler.BufferSafety
import FPsPIN.Lib.Counter

/-!
# Dispatch after the DMA transfer

A task with a packet goes to an HPU only after the transfer of its packet has
completed, although the scheduler only counts completions. Tasks and transfers
keep the order of acceptance, so the first task of the queue that has a packet
waits for the next completion, and tasks without a packet do not count. The
DMA completes the transfers in the order in which they are handed over.
-/

namespace FPsPIN.ClusterScheduler

open CommonCells Config Run

variable {p : Params}

def hasPacket (task : HpuHandlerTask) : Bool := task.handlerTask.pktSize != 0

def xferOf (task : HpuHandlerTask) : TransfDescr :=
  ⟨task.handlerTask.pktSize, task.handlerTask.pktAddr, task.pktPtr⟩

section Cycle

variable (s : State p) (i : Input p)

def accepts : List HpuHandlerTask := if taskNew s i then [newTask s i] else []

def dispatches : List HpuHandlerTask := if dmaReqPop s i then s.dmaReq.take 1 else []

def handsOver : List TransfDescr := if dmaXferValid s i && i.dmaXferReady then [dmaXferOut s i] else []

def stalledXfer : List TransfDescr := if s.stateQ == .waitDma then [s.dmaXferQ] else []

theorem taskNew_ready (h : taskNew s i = true) : s.stateQ = .ready ∧ s.dmaReq.length < p.numHersPerCluster := by
  simp only [taskNew, taskReady, dmaReqFull, Bool.and_eq_true, beq_iff_eq, Bool.not_eq_true',
    decide_eq_false_iff_not, Nat.not_le] at h
  exact h.2.1

theorem dmaReq_step : dispatches s i ++ (step s i).dmaReq = s.dmaReq ++ accepts s i :=
  take_append_fifoV3Step fun hNew => (taskNew_ready s i hNew).2

theorem xfer_step :
    handsOver s i ++ stalledXfer (step s i) =
      stalledXfer s ++ ((accepts s i).filter hasPacket).map xferOf := by
  change handsOver s i ++ (if stateD s i == .waitDma then [dmaXferOut s i] else []) = _
  cases hState : s.stateQ with
  | ready =>
    have hOut : dmaXferOut s i = xferOf (newTask s i) := by rw [dmaXferOut, hState]; rfl
    have hValid : dmaXferValid s i = canIssueDma s i := by simp [dmaXferValid, hState]
    have hIssue : ((accepts s i).filter hasPacket).map xferOf =
        if canIssueDma s i then [xferOf (newTask s i)] else [] := by
      rw [accepts, canIssueDma]
      cases taskNew s i with
      | false => rfl
      | true =>
        have hPacket : hasPacket (newTask s i) = (i.taskDescr.pktSize != 0) := rfl
        rw [if_pos rfl, Bool.true_and, ← hPacket]
        cases hp : hasPacket (newTask s i) <;> simp [hp]
    rw [handsOver, hValid, hOut, hIssue, stalledXfer, stateD, hState]
    cases canIssueDma s i <;> cases i.dmaXferReady <;> rfl
  | waitDma =>
    have hNone : accepts s i = [] := by
      refine if_neg fun hNew => ?_
      rw [(taskNew_ready s i hNew).1] at hState
      cases hState
    have hOut : dmaXferOut s i = s.dmaXferQ := by rw [dmaXferOut, hState]; rfl
    have hValid : dmaXferValid s i = true := by simp [dmaXferValid, hState]
    rw [handsOver, hValid, hOut, hNone, stalledXfer, stateD, hState]
    cases i.dmaXferReady <;> rfl

theorem length_filter_dispatches :
    ((dispatches s i).filter hasPacket).length = (dmaReqPopNz s i).toNat := by
  rw [dispatches, dmaReqPop, dmaReqPopNz]
  cases s.dmaReq with
  | nil => rfl
  | cons task rest =>
    have hPacket : hasPacket task = (task.handlerTask.pktSize != 0) := rfl
    have hZero : (task.handlerTask.pktSize == 0) = !hasPacket task := by rw [hPacket, bne, Bool.not_not]
    simp only [← hPacket, hZero, List.take_succ_cons, List.take_zero]
    cases noFreeHpu i <;> cases decide (0 < s.toPopQ.toNat) <;> cases hp : hasPacket task <;> simp [hp]

/-- The counter moves by completions and dispatches, if it does not exceed the number of tasks. -/
theorem toPop_step (hRoom : s.toPopQ.toNat + i.dmaResp.toNat ≤ p.numHersPerCluster + (dmaReqPopNz s i).toNat) :
    (step s i).toPopQ.toNat + (dmaReqPopNz s i).toNat = s.toPopQ.toNat + i.dmaResp.toNat := by
  have hWidth : p.numHersPerCluster < 2 ^ p.popWidth := Counter.lt_two_pow_clog_succ _
  have hPos : dmaReqPopNz s i = true → 0 < s.toPopQ.toNat := by
    intro hPop
    rw [dmaReqPopNz] at hPop
    cases hReq : s.dmaReq with
    | nil => rw [hReq] at hPop; cases hPop
    | cons task rest =>
      rw [hReq] at hPop
      simp only [Bool.and_eq_true, decide_eq_true_eq] at hPop
      exact hPop.1.2
  exact Counter.toNat_upDown (fun hPop => Nat.add_pos_left (hPos hPop) _) (by omega)

theorem noFreeHpu_of_dispatch (h : dmaReqPop s i = true) : noFreeHpu i = false := by
  rw [dmaReqPop] at h
  cases hReq : s.dmaReq with
  | nil => rw [hReq] at h; cases h
  | cons task rest =>
    rw [hReq] at h
    simp only [Bool.and_eq_true, Bool.not_eq_true'] at h
    exact h.1

theorem dispatch_target (h : dmaReqPop s i = true) :
    ∃ c, i.hpuTaskReady c = true ∧ ∀ c', hpuTaskValid s i c' = true ↔ c' = c := by
  have hSome : ¬ ∀ c < numCores, idleHpu i c = false := by
    rw [← lzcEmpty_eq_true]
    exact Bool.eq_false_iff.mp (noFreeHpu_of_dispatch s i h)
  push Not at hSome
  obtain ⟨c, hc, hIdle⟩ := hSome
  obtain ⟨hLt, hBit, _⟩ := lzcCnt_spec (idleHpu i) hc (Bool.not_eq_false _ ▸ hIdle)
  refine ⟨⟨freeHpuIdx i, hLt⟩, ?_, fun c' => ?_⟩
  · rwa [idleHpu, dif_pos hLt] at hBit
  · rw [hpuTaskValid, h, Bool.true_and, decide_eq_true_eq, Fin.ext_iff]

end Cycle

section Runs

variable (inputs : Nat → Input p)

def runAt (t : Nat) : State p := stateAt step (init p) inputs t

def acceptedOn (t : Nat) : List HpuHandlerTask := window (fun u => accepts (runAt inputs u) (inputs u)) 0 t

def dispatchedOn (t : Nat) : List HpuHandlerTask := window (fun u => dispatches (runAt inputs u) (inputs u)) 0 t

def transfersOn (t : Nat) : List TransfDescr := window (fun u => handsOver (runAt inputs u) (inputs u)) 0 t

def completedOn : Nat → Nat
  | 0 => 0
  | t + 1 => completedOn t + (inputs t).dmaResp.toNat

def packetsDispatched (t : Nat) : Nat := ((dispatchedOn inputs t).filter hasPacket).length

theorem dispatched_append_waiting (t : Nat) :
    dispatchedOn inputs t ++ (runAt inputs t).dmaReq = acceptedOn inputs t :=
  window_append_queue (fun u => (runAt inputs u).dmaReq) rfl (fun u => dmaReq_step (runAt inputs u) (inputs u)) t

theorem transfers_append_stalled (t : Nat) :
    transfersOn inputs t ++ stalledXfer (runAt inputs t) =
      ((acceptedOn inputs t).filter hasPacket).map xferOf := by
  have hXfers : ((acceptedOn inputs t).filter hasPacket).map xferOf =
      window (fun u => ((accepts (runAt inputs u) (inputs u)).filter hasPacket).map xferOf) 0 t := by
    rw [acceptedOn, filter_window, map_window]
  rw [hXfers]
  exact window_append_queue (fun u => stalledXfer (runAt inputs u)) rfl
    (fun u => xfer_step (runAt inputs u) (inputs u)) t

theorem packetsDispatched_succ (t : Nat) :
    packetsDispatched inputs (t + 1) =
      packetsDispatched inputs t + (dmaReqPopNz (runAt inputs t) (inputs t)).toNat := by
  rw [packetsDispatched, dispatchedOn, window_succ _ (Nat.zero_le t), List.filter_append, List.length_append,
    length_filter_dispatches]
  rfl

theorem length_dmaReq_le (t : Nat) : (runAt inputs t).dmaReq.length ≤ p.numHersPerCluster := by
  induction t with
  | zero => exact Nat.zero_le _
  | succ t ih => exact length_fifoV3Step_le ih

/-- The queue has room for all transfers without a dispatched task. -/
theorem length_transfers_le (t : Nat) :
    (transfersOn inputs t).length ≤ packetsDispatched inputs t + p.numHersPerCluster := by
  have hXfers := congrArg List.length (transfers_append_stalled inputs t)
  have hTasks := congrArg (fun tasks => (tasks.filter hasPacket).length) (dispatched_append_waiting inputs t)
  have hWaiting := List.length_filter_le hasPacket (runAt inputs t).dmaReq
  have hRoom := length_dmaReq_le inputs t
  simp only [List.length_append, List.length_map, List.filter_append] at hXfers hTasks
  rw [packetsDispatched]
  omega

variable {inputs}

theorem run_toPop (hDma : ∀ t, completedOn inputs t ≤ (transfersOn inputs t).length) (t : Nat) :
    (runAt inputs t).toPopQ.toNat + packetsDispatched inputs t = completedOn inputs t := by
  induction t with
  | zero => rfl
  | succ t ih =>
    have hNext := hDma (t + 1)
    have hRoom := length_transfers_le inputs (t + 1)
    have hCompleted : completedOn inputs (t + 1) = completedOn inputs t + (inputs t).dmaResp.toNat := rfl
    rw [packetsDispatched_succ] at hRoom ⊢
    have hStep := toPop_step (runAt inputs t) (inputs t) (by omega)
    change (step (runAt inputs t) (inputs t)).toPopQ.toNat + _ = _
    omega

variable (inputs)

/-- The DMA takes and completes the transfers, and again and again an HPU is ready. -/
structure Fair : Prop where
  takes : ∀ t, (runAt inputs t).stateQ = .waitDma → ∃ u, t ≤ u ∧ (inputs u).dmaXferReady = true
  completes : ∀ t, ∃ u, (transfersOn inputs t).length ≤ completedOn inputs u
  idle : ∀ t, ∃ u, t ≤ u ∧ noFreeHpu (inputs u) = false

structure DispatchContract : Prop where
  /-- Each accepted task is dispatched once and in order, or waits. -/
  order : ∀ t, dispatchedOn inputs t ++ (runAt inputs t).dmaReq = acceptedOn inputs t
  target : ∀ t, dmaReqPop (runAt inputs t) (inputs t) = true →
    ∃ c, (inputs t).hpuTaskReady c = true ∧ ∀ c', hpuTaskValid (runAt inputs t) (inputs t) c' = true ↔ c' = c
  /-- The transfers, in order, are those of the accepted tasks that have a packet. -/
  transfers : ∀ t, transfersOn inputs t ++ stalledXfer (runAt inputs t) =
    ((acceptedOn inputs t).filter hasPacket).map xferOf
  /-- The transfer of a dispatched task is among those that have completed. -/
  afterDma : ∀ t task, task ∈ dispatches (runAt inputs t) (inputs t) → hasPacket task = true →
    ((transfersOn inputs t).take (completedOn inputs t))[packetsDispatched inputs t]? = some (xferOf task)
  toPop : ∀ t, (runAt inputs t).toPopQ.toNat + packetsDispatched inputs t = completedOn inputs t
  served : Fair inputs → ∀ t n, n < (acceptedOn inputs t).length → ∃ u, n < (dispatchedOn inputs u).length

variable {inputs}

theorem dispatches_cons {s : State p} {i : Input p} {task : HpuHandlerTask} (h : task ∈ dispatches s i) :
    dmaReqPop s i = true ∧ ∃ rest, s.dmaReq = task :: rest := by
  rw [dispatches] at h
  split_ifs at h with hPop
  · cases hReq : s.dmaReq with
    | nil => rw [hReq] at h; cases h
    | cons head rest =>
      rw [hReq] at h
      exact ⟨hPop, rest, by rw [List.mem_singleton.mp h]⟩
  · cases h

/-- The next transfer to be waited for is that of the first waiting task that has a packet. -/
theorem transfer_of_head {t : Nat} {task : HpuHandlerTask} {rest : List HpuHandlerTask}
    (hReq : (runAt inputs t).dmaReq = task :: rest) (hPacket : hasPacket task = true) :
    (transfersOn inputs t ++ stalledXfer (runAt inputs t))[packetsDispatched inputs t]? = some (xferOf task) := by
  rw [transfers_append_stalled, ← dispatched_append_waiting, hReq, List.filter_append, List.map_append,
    List.filter_cons_of_pos hPacket, List.map_cons, packetsDispatched]
  rw [← List.length_map (f := xferOf), List.getElem?_append_right (Nat.le_refl _), Nat.sub_self]
  rfl

theorem toPop_pos_of_dispatch {s : State p} {i : Input p} {task : HpuHandlerTask} {rest : List HpuHandlerTask}
    (hPop : dmaReqPop s i = true) (hReq : s.dmaReq = task :: rest) (hPacket : hasPacket task = true) :
    0 < s.toPopQ.toNat := by
  have hSize : (task.handlerTask.pktSize == 0) = false := by
    rw [hasPacket, bne, Bool.not_eq_true'] at hPacket
    exact hPacket
  rw [dmaReqPop, hReq] at hPop
  simp only [hSize, Bool.or_false, Bool.and_eq_true, decide_eq_true_eq] at hPop
  exact hPop.2

theorem completed_before_dispatch (hDma : ∀ t, completedOn inputs t ≤ (transfersOn inputs t).length) {t : Nat}
    {task : HpuHandlerTask} (hTask : task ∈ dispatches (runAt inputs t) (inputs t))
    (hPacket : hasPacket task = true) :
    ((transfersOn inputs t).take (completedOn inputs t))[packetsDispatched inputs t]? = some (xferOf task) := by
  obtain ⟨hPop, rest, hReq⟩ := dispatches_cons hTask
  have hPos := toPop_pos_of_dispatch hPop hReq hPacket
  have hCount := run_toPop hDma t
  have hLe := hDma t
  have hHead := transfer_of_head hReq hPacket
  rw [List.getElem?_append_left (by omega)] at hHead
  rw [List.getElem?_take_of_lt (by omega)]
  exact hHead

theorem completedOn_mono {t u : Nat} (h : t ≤ u) : completedOn inputs t ≤ completedOn inputs u := by
  induction u, h using Nat.le_induction with
  | base => exact Nat.le_refl _
  | succ u _ ih => exact ih.trans (Nat.le_add_right _ _)

theorem waiting_kept {t u : Nat} (h : t ≤ u)
    (hNone : ∀ v, t ≤ v → dmaReqPop (runAt inputs v) (inputs v) = false) :
    dispatchedOn inputs u = dispatchedOn inputs t ∧ (runAt inputs t).dmaReq <+: (runAt inputs u).dmaReq := by
  have hSame : dispatchedOn inputs u = dispatchedOn inputs t := by
    have hNil : window (fun v => dispatches (runAt inputs v) (inputs v)) t u = [] := by
      refine window_eq_nil fun v hv _ => ?_
      rw [dispatches, hNone v hv]
      rfl
    rw [dispatchedOn, ← window_append _ (Nat.zero_le t) h, hNil, List.append_nil]
    rfl
  have hMono : acceptedOn inputs t <+: acceptedOn inputs u := window_mono _ h
  rw [← dispatched_append_waiting, ← dispatched_append_waiting, hSame, List.prefix_append_right_inj] at hMono
  exact ⟨hSame, hMono⟩

theorem dispatch_of_ready {s : State p} {i : Input p} {task : HpuHandlerTask} {rest : List HpuHandlerTask}
    (hReq : s.dmaReq = task :: rest) (hFree : noFreeHpu i = false)
    (hReady : 0 < s.toPopQ.toNat ∨ hasPacket task = false) : dmaReqPop s i = true := by
  rw [dmaReqPop, hReq]
  simp only [hFree, Bool.not_false, Bool.true_and, Bool.or_eq_true, decide_eq_true_eq]
  refine hReady.imp_right fun hNone => ?_
  rw [hasPacket, bne, Bool.not_eq_false'] at hNone
  exact hNone

theorem exists_transfer (hFair : Fair inputs) {t k : Nat}
    (hWaited : ∀ u, t ≤ u → k < (transfersOn inputs u ++ stalledXfer (runAt inputs u)).length) :
    ∃ u, k < (transfersOn inputs u).length := by
  by_contra hNever
  push Not at hNever
  have hStalled : ∀ u, t ≤ u → (runAt inputs u).stateQ = .waitDma ∧ (transfersOn inputs u).length = k := by
    intro u hu
    have hLt := hWaited u hu
    have hLe := hNever u
    rw [List.length_append, stalledXfer] at hLt
    cases hState : (runAt inputs u).stateQ with
    | ready =>
      rw [hState] at hLt
      exact absurd hLt (Nat.not_lt_of_le hLe)
    | waitDma =>
      rw [hState] at hLt
      exact ⟨rfl, Nat.le_antisymm hLe (Nat.le_of_lt_succ hLt)⟩
  obtain ⟨u, hu, hReady⟩ := hFair.takes t (hStalled t (Nat.le_refl t)).1
  obtain ⟨hState, hLength⟩ := hStalled u hu
  have hNext := hNever (u + 1)
  have hOver : (handsOver (runAt inputs u) (inputs u)).length = 1 := by
    rw [handsOver, dmaXferValid, hState, hReady]
    rfl
  rw [transfersOn, window_succ _ (Nat.zero_le u), List.length_append, hOver, ← transfersOn, hLength] at hNext
  omega

theorem exists_dispatch (hDma : ∀ t, completedOn inputs t ≤ (transfersOn inputs t).length) (hFair : Fair inputs)
    {t : Nat} (hWaiting : (runAt inputs t).dmaReq ≠ []) :
    ∃ u, t ≤ u ∧ dmaReqPop (runAt inputs u) (inputs u) = true := by
  by_contra hNever
  have hNone : ∀ u, t ≤ u → dmaReqPop (runAt inputs u) (inputs u) = false := by
    intro u hu
    by_contra hPop
    exact hNever ⟨u, hu, Bool.not_eq_false _ ▸ hPop⟩
  obtain ⟨task, rest, hReq⟩ := List.exists_cons_of_ne_nil hWaiting
  have hHead : ∀ u, t ≤ u → packetsDispatched inputs u = packetsDispatched inputs t ∧
      ∃ more, (runAt inputs u).dmaReq = task :: more := by
    intro u hu
    obtain ⟨hSame, more, hMore⟩ := waiting_kept hu hNone
    refine ⟨by rw [packetsDispatched, hSame]; rfl, rest ++ more, ?_⟩
    rw [← hMore, hReq]
    rfl
  -- it is enough to find an idle HPU once the transfer has completed
  have hDone : ∃ v, ∀ u, t ≤ u → v ≤ u → 0 < (runAt inputs u).toPopQ.toNat ∨ hasPacket task = false := by
    cases hPacket : hasPacket task with
    | false => exact ⟨0, fun _ _ _ => .inr rfl⟩
    | true =>
      obtain ⟨w, hw⟩ := exists_transfer (t := t) (k := packetsDispatched inputs t) hFair (by
        intro u hu
        obtain ⟨hSame, more, hMore⟩ := hHead u hu
        rw [← hSame]
        exact (List.getElem?_eq_some_iff.mp (transfer_of_head hMore hPacket)).1)
      obtain ⟨v, hv⟩ := hFair.completes w
      refine ⟨v, fun u hu hvu => .inl ?_⟩
      have hCount := run_toPop hDma u
      have hMono : completedOn inputs v ≤ completedOn inputs u := completedOn_mono hvu
      rw [(hHead u hu).1] at hCount
      omega
  obtain ⟨v, hv⟩ := hDone
  obtain ⟨u, hu, hFree⟩ := hFair.idle (max t v)
  have htu : t ≤ u := (Nat.le_max_left t v).trans hu
  obtain ⟨_, more, hMore⟩ := hHead u htu
  have hPop := dispatch_of_ready hMore hFree (hv u htu ((Nat.le_max_right t v).trans hu))
  rw [hNone u htu] at hPop
  cases hPop

theorem accepted_dispatched (hDma : ∀ t, completedOn inputs t ≤ (transfersOn inputs t).length)
    (hFair : Fair inputs)
    {t n : Nat} (hn : n < (acceptedOn inputs t).length) : ∃ u, n < (dispatchedOn inputs u).length := by
  refine exists_left (fun u => (runAt inputs u).dmaReq.length) (fun u => ?_) (fun u hWaiting => ?_) hn
  · have hOrder := congrArg List.length (dispatched_append_waiting inputs u)
    rwa [List.length_append] at hOrder
  · obtain ⟨v, huv, hPop⟩ := exists_dispatch hDma hFair (List.length_pos_iff.mp hWaiting)
    refine ⟨v, huv, ?_⟩
    cases hReq : (runAt inputs v).dmaReq with
    | nil => rw [dmaReqPop, hReq] at hPop; cases hPop
    | cons task rest =>
      rw [dispatches, hPop, hReq]
      exact List.cons_ne_nil _ _

theorem dispatch_contract (hDma : ∀ t, completedOn inputs t ≤ (transfersOn inputs t).length) :
    DispatchContract inputs where
  order := dispatched_append_waiting inputs
  target t := dispatch_target (runAt inputs t) (inputs t)
  transfers := transfers_append_stalled inputs
  afterDma _ _ := completed_before_dispatch hDma
  toPop := run_toPop hDma
  served hFair _ _ := accepted_dispatched hDma hFair

/-- A task with a packet, then one without. The DMA takes the transfer in cycle 1 and completes it in
cycle 3. -/
def stalledOnce (t : Nat) : Input smallBuffer where
  taskValid := t == 0 || t == 2
  taskDescr :=
    { msgid := 0, handlerFun := 0, handlerFunSize := 0, handlerMemAddr := 0, handlerMemSize := 0, hostMemAddr := 0
      hostMemSize := 0, pktAddr := 0x1c100000, pktSize := if t = 0 then 100 else 0, triggerFeedback := true
      scratchpadAddr := fun _ => 0, scratchpadSize := fun _ => 0 }
  feedbackReady := true
  dmaXferReady := t == 1
  dmaResp := t == 3
  hpuTaskReady _ := true
  hpuFeedbackValid _ := false
  hpuFeedback _ := ⟨⟨0, 0, 0, false⟩, 0⟩
  hpuFeedbackIdx := ⟨0, numCores_pos⟩

theorem completedOn_stalledOnce (t : Nat) : completedOn stalledOnce t = if 3 < t then 1 else 0 := by
  induction t with
  | zero => rfl
  | succ t ih =>
    have hResp : (stalledOnce t).dmaResp = (t == 3) := rfl
    rw [completedOn, ih, hResp]
    rcases Nat.lt_trichotomy t 3 with hLt | rfl | hGt
    · rw [beq_false_of_ne (by omega), if_neg (by omega), if_neg (by omega)]
      rfl
    · rfl
    · rw [beq_false_of_ne (by omega), if_pos hGt, if_pos (by omega)]
      rfl

theorem stalledOnce_inOrder (t : Nat) : completedOn stalledOnce t ≤ (transfersOn stalledOnce t).length := by
  rw [completedOn_stalledOnce]
  split_ifs with ht
  · have hMono : transfersOn stalledOnce 2 <+: transfersOn stalledOnce t := window_mono _ (by omega)
    have hOne : (transfersOn stalledOnce 2).length = 1 := by decide +kernel
    exact hOne ▸ hMono.length_le
  · exact Nat.zero_le _

theorem dispatch_contract_stalledOnce :
    (dispatchedOn stalledOnce 4).length = 0 ∧ (dispatchedOn stalledOnce 6).length = 2 ∧
      DispatchContract stalledOnce :=
  ⟨by decide +kernel, by decide +kernel, dispatch_contract stalledOnce_inOrder⟩

end Runs

end FPsPIN.ClusterScheduler
