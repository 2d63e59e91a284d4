import FPsPIN.SocDma.Block

/-!
# Commands and DMA transfers

The queue of a direction has the ids of the accepted commands without a
response. As long as it is not full, a command is accepted in the cycle in
which the engine takes its transfer, so there is one transfer for each command;
a full queue would let the engine take the same transfer again. The engine
completes the transfers of a direction in order. The block has no case for a
transfer of no bytes, which the engine drops: such a command takes the response
of a later one.
-/

namespace FPsPIN.SocDma

open CmdDescr CommonCells Config Counter Events Run

variable {p : Params} {numCmds : Nat}

section Cycle

variable (s : State p numCmds) (i : Input numCmds)

def accepts : Option (PspinCmd numCmds) := if i.cmdReqValid && cmdReqReady s i then some i.cmdReq else none

def starts (d : Direction) : Option TransfDescrSoc :=
  if reqValid i d && i.reqReady d then some (xferDescr i.cmdReq) else none

def completes (d : Direction) : Option Unit := if i.respValid d then some () else none

def pops (d : Direction) : Option (PspinCmdId numCmds) := if fifoPop s i d then (s.respFifo d).head? else none

def answers : Option (PspinCmdId numCmds) := if cmdRespValid s then cmdRespId s i else none

/-- The arbiter chooses a direction with a response, if there is one. -/
def Arbitrates : Prop := ∀ d, fifoRespAvail s d = true → fifoRespAvail s i.respIdx = true

variable {s i}

theorem fifoPush_eq (d : Direction) :
    (if fifoPush s i d then some i.cmdReq.cmdId else none) =
      ((accepts s i).filter fun cmd => directionOf cmd = d).map (·.cmdId) := by
  rw [fifoPush, reqValid, accepts]
  cases i.cmdReqValid <;> cases cmdReqReady s i <;> cases hDir : decide (directionOf i.cmdReq = d) <;>
    simp [hDir, Option.filter]

theorem room_of_fifoPush {d : Direction} (h : fifoPush s i d = true) :
    (s.respFifo d).length < p.respFifoDepth := by
  obtain ⟨hReady, hReq⟩ := Bool.and_eq_true_iff.mp h
  obtain rfl := of_decide_eq_true (Bool.and_eq_true_iff.mp hReq).2
  rw [cmdReqReady, Bool.and_eq_true, Bool.and_eq_true, fifoFull, Bool.not_eq_true',
    decide_eq_false_iff_not] at hReady
  exact Nat.lt_of_not_le hReady.2.1

theorem respFifo_step (d : Direction) :
    (pops s i d).toList ++ (step s i).respFifo d =
      s.respFifo d ++ (((accepts s i).filter fun cmd => directionOf cmd = d).map (·.cmdId)).toList := by
  rw [← fifoPush_eq]
  exact head_append_fifoV3Step room_of_fifoPush

theorem starts_eq {d : Direction} (hRoom : (s.respFifo d).length < p.respFifoDepth) :
    starts i d = ((accepts s i).filter fun cmd => directionOf cmd = d).map xferDescr := by
  rw [starts, accepts, reqValid, cmdReqReady]
  cases hDir : decide (directionOf i.cmdReq = d) with
  | false =>
    cases i.cmdReqValid &&
      (i.cmdReqValid && (!fifoFull s (directionOf i.cmdReq) && i.reqReady (directionOf i.cmdReq))) <;>
      simp [hDir, Option.filter]
  | true =>
    obtain rfl := of_decide_eq_true hDir
    have hFull : fifoFull s (directionOf i.cmdReq) = false := decide_eq_false (Nat.not_le_of_lt hRoom)
    rw [hFull]
    cases i.cmdReqValid <;> cases i.reqReady (directionOf i.cmdReq) <;> simp [Option.filter]

theorem fifoPop_unique {d e : Direction} (hd : pops s i d ≠ none) (he : pops s i e ≠ none) : d = e := by
  have hPop : ∀ {d}, pops s i d ≠ none → d = i.respIdx := by
    intro d hNe
    by_contra hIdx
    exact hNe (if_neg fun hPop => hIdx (of_decide_eq_true (Bool.and_eq_true_iff.mp hPop).2))
  exact (hPop hd).trans (hPop he).symm

theorem answers_eq_some (h : Arbitrates s i) {id : PspinCmdId numCmds} :
    answers s i = some id ↔ ∃ d, pops s i d = some id := by
  rw [answers, ite_eq_iff]
  constructor
  · rintro (⟨hValid, hId⟩ | ⟨_, hNone⟩)
    · have hChosen : fifoRespAvail s i.respIdx = true := by
        rw [cmdRespValid, Bool.or_eq_true] at hValid
        rcases hValid with hRx | hTx
        · exact h .rx hRx
        · exact h .tx hTx
      refine ⟨i.respIdx, ?_⟩
      rw [pops, fifoPop, hChosen, decide_eq_true rfl, Bool.and_true, if_pos rfl]
      exact hId
    · cases hNone
  · rintro ⟨d, hPop⟩
    rw [pops, ite_eq_iff] at hPop
    rcases hPop with ⟨hPop, hId⟩ | ⟨_, hNone⟩
    · obtain ⟨hAvail, hIdx⟩ := Bool.and_eq_true_iff.mp hPop
      obtain rfl := of_decide_eq_true hIdx
      refine .inl ⟨?_, hId⟩
      rw [cmdRespValid, Bool.or_eq_true]
      cases hDir : i.respIdx with
      | rx => exact .inl (hDir ▸ hAvail)
      | tx => exact .inr (hDir ▸ hAvail)
    · cases hNone

theorem fifoPop_iff {d : Direction} (hQueue : (s.toPopQ d).toNat ≤ (s.respFifo d).length) :
    fifoPop s i d = true ↔ pops s i d ≠ none := by
  rw [pops]
  constructor
  · intro hPop
    have hPos := of_decide_eq_true (Bool.and_eq_true_iff.mp hPop).1
    rw [if_pos hPop, ne_eq, List.head?_eq_none_iff]
    exact List.length_pos_iff.mp (Nat.lt_of_lt_of_le hPos hQueue)
  · intro hPops
    by_contra hPop
    exact hPops (if_neg hPop)

theorem respValid_iff {d : Direction} : i.respValid d = true ↔ completes i d ≠ none := by
  rw [completes]
  cases i.respValid d <;> simp

theorem toPop_step {d : Direction} (hQueue : (s.toPopQ d).toNat ≤ (s.respFifo d).length)
    (hRoom : (s.toPopQ d).toNat + (completes i d).toList.length ≤ p.respFifoDepth + (pops s i d).toList.length) :
    ((step s i).toPopQ d).toNat + (pops s i d).toList.length =
      (s.toPopQ d).toNat + (completes i d).toList.length := by
  rw [length_toList_eq (fifoPop_iff hQueue), length_toList_eq respValid_iff] at hRoom ⊢
  refine toNat_upDown (fun hPop => Nat.add_pos_left (of_decide_eq_true (Bool.and_eq_true_iff.mp hPop).1) _) ?_
  have hWidth := p.respFifoDepth_lt
  omega

theorem length_answers (h : Arbitrates s i) :
    (answers s i).toList.length = (pops s i .rx).toList.length + (pops s i .tx).toList.length := by
  cases hAnswer : answers s i with
  | none =>
    have hNone : ∀ d, pops s i d = none := by
      intro d
      by_contra hPop
      obtain ⟨id, hId⟩ := Option.ne_none_iff_exists'.mp hPop
      rw [(answers_eq_some h).mpr ⟨d, hId⟩] at hAnswer
      cases hAnswer
    rw [hNone, hNone]
    rfl
  | some id =>
    obtain ⟨d, hPop⟩ := (answers_eq_some h).mp hAnswer
    have hOther : ∀ e, e ≠ d → pops s i e = none := by
      intro e hNe
      by_contra hPop'
      exact hNe (fifoPop_unique hPop' (Option.ne_none_iff_exists'.mpr ⟨id, hPop⟩))
    cases d with
    | rx => rw [hPop, hOther .tx (fun h => nomatch h)]; rfl
    | tx => rw [hPop, hOther .rx (fun h => nomatch h)]; rfl

end Cycle

section Runs

variable (p) (inputs : Nat → Input numCmds)

def runAt (t : Nat) : State p numCmds := stateAt step (init p numCmds) inputs t

def accepted (t : Nat) : Option (PspinCmd numCmds) := accepts (runAt p inputs t) (inputs t)

def started (d : Direction) (t : Nat) : Option TransfDescrSoc := starts (inputs t) d

def completed (d : Direction) (t : Nat) : Option Unit := completes (inputs t) d

def popped (d : Direction) (t : Nat) : Option (PspinCmdId numCmds) := pops (runAt p inputs t) (inputs t) d

def answered (t : Nat) : Option (PspinCmdId numCmds) := answers (runAt p inputs t) (inputs t)

theorem matching_popped (d : Direction) :
    Follows (channel directionOf (accepted p inputs) d) (popped p inputs d) (fun cmd id => id = cmd.cmdId) :=
  matching_of_queue PspinCmd.cmdId (fun t => (runAt p inputs t).respFifo d) rfl fun _ => respFifo_step d

theorem length_popped_add_queue (d : Direction) (t : Nat) :
    (eventsOf (popped p inputs d) t).length + ((runAt p inputs t).respFifo d).length =
      (eventsOf (channel directionOf (accepted p inputs) d) t).length :=
  length_eventsOf_add_queue PspinCmd.cmdId (fun t => (runAt p inputs t).respFifo d) rfl
    (fun _ => respFifo_step d) t

theorem length_respFifo_le (d : Direction) (t : Nat) :
    ((runAt p inputs t).respFifo d).length ≤ p.respFifoDepth := by
  induction t with
  | zero => exact Nat.zero_le _
  | succ t ih => exact length_fifoV3Step_le ih

theorem length_accepted (t : Nat) :
    (eventsOf (accepted p inputs) t).length = (eventsOf (channel directionOf (accepted p inputs) .rx) t).length +
      (eventsOf (channel directionOf (accepted p inputs) .tx) t).length := by
  induction t with
  | zero => rfl
  | succ t ih =>
    have hNow : (accepted p inputs t).toList.length =
        (channel directionOf (accepted p inputs) .rx t).toList.length +
          (channel directionOf (accepted p inputs) .tx t).toList.length := by
      rw [channel, channel]
      cases accepted p inputs t with
      | none => rfl
      | some cmd => cases hDir : directionOf cmd <;> simp [Option.filter, hDir]
    rw [eventsOf_succ, eventsOf_succ, eventsOf_succ, List.length_append, List.length_append, List.length_append,
      ih, hNow]
    omega

/-- The engine completes no transfer that it has not taken. -/
def EngineSound : Prop := ∀ d t, (eventsOf (completed inputs d) t).length ≤ (eventsOf (started inputs d) t).length

variable {p inputs}

theorem length_answered (hArb : ∀ t, Arbitrates (runAt p inputs t) (inputs t)) (t : Nat) :
    (eventsOf (answered p inputs) t).length =
      (eventsOf (popped p inputs .rx) t).length + (eventsOf (popped p inputs .tx) t).length := by
  induction t with
  | zero => rfl
  | succ t ih =>
    have hNow := length_answers (hArb t)
    rw [eventsOf_succ, eventsOf_succ, eventsOf_succ, List.length_append, List.length_append, List.length_append,
      ih]
    change _ + (answers (runAt p inputs t) (inputs t)).toList.length = _
    rw [hNow, popped, popped]
    omega

theorem length_started {d : Direction} {t : Nat}
    (hRoom : ∀ u < t, ((runAt p inputs u).respFifo d).length < p.respFifoDepth) :
    (eventsOf (started inputs d) t).length = (eventsOf (channel directionOf (accepted p inputs) d) t).length := by
  have hMap : eventsOf (started inputs d) t =
    (eventsOf (channel directionOf (accepted p inputs) d) t).map xferDescr := by
    rw [map_eventsOf]
    exact window_congr fun u _ hu => congrArg Option.toList (starts_eq (hRoom u hu))
  rw [hMap, List.length_map]

theorem run_toPop (hEngine : EngineSound inputs) {d : Direction} {t : Nat}
    (hRoom : ∀ u < t, ((runAt p inputs u).respFifo d).length < p.respFifoDepth) :
    ((runAt p inputs t).toPopQ d).toNat + (eventsOf (popped p inputs d) t).length =
      (eventsOf (completed inputs d) t).length := by
  induction t with
  | zero => rfl
  | succ t ih =>
    have hBefore := ih fun u hu => hRoom u (Nat.lt_succ_of_lt hu)
    have hStarted := length_started fun u hu => hRoom u (Nat.lt_succ_of_lt hu)
    have hStartedNext := length_started hRoom
    have hQueue := length_popped_add_queue p inputs d t
    have hQueueNext := length_popped_add_queue p inputs d (t + 1)
    have hDone := hEngine d t
    have hDoneNext := hEngine d (t + 1)
    have hLe := length_respFifo_le p inputs d (t + 1)
    rw [eventsOf_succ (completed inputs d), List.length_append] at hDoneNext ⊢
    rw [eventsOf_succ (popped p inputs d), List.length_append] at hQueueNext ⊢
    have hStep := toPop_step (s := runAt p inputs t) (i := inputs t) (d := d) (by omega)
      (by change _ + (completed inputs d t).toList.length ≤ _ + (popped p inputs d t).toList.length; omega)
    change ((step (runAt p inputs t) (inputs t)).toPopQ d).toNat +
      (_ + (pops (runAt p inputs t) (inputs t) d).toList.length) = _ + (completes (inputs t) d).toList.length
    omega

theorem toPop_le (hEngine : EngineSound inputs) {d : Direction} {t : Nat}
    (hRoom : ∀ u < t, ((runAt p inputs u).respFifo d).length < p.respFifoDepth) :
    ((runAt p inputs t).toPopQ d).toNat ≤ ((runAt p inputs t).respFifo d).length := by
  have hCount := run_toPop hEngine hRoom
  have hStarted := length_started hRoom
  have hQueue := length_popped_add_queue p inputs d t
  have hDone := hEngine d t
  omega

theorem cmdRespId_ne_none (hEngine : EngineSound inputs) {t : Nat}
    (hArb : Arbitrates (runAt p inputs t) (inputs t))
    (hRoom : ∀ d, ∀ u < t, ((runAt p inputs u).respFifo d).length < p.respFifoDepth)
    (hValid : cmdRespValid (runAt p inputs t) = true) : cmdRespId (runAt p inputs t) (inputs t) ≠ none := by
  have hChosen : fifoRespAvail (runAt p inputs t) (inputs t).respIdx = true := by
    rcases Bool.or_eq_true _ _ ▸ hValid with hRx | hTx
    · exact hArb .rx hRx
    · exact hArb .tx hTx
  rw [cmdRespId, ne_eq, List.head?_eq_none_iff]
  exact List.length_pos_iff.mp (Nat.lt_of_lt_of_le (of_decide_eq_true hChosen) (toPop_le hEngine (hRoom _)))

section Room

variable (hEngine : EngineSound inputs) (hArb : ∀ t, Arbitrates (runAt p inputs t) (inputs t))
variable (hRoom : ∀ d t, ((runAt p inputs t).respFifo d).length < p.respFifoDepth)

omit hEngine in
/-- Each command has its response, from its direction. -/
theorem matching_answered (hArb : ∀ t, Arbitrates (runAt p inputs t) (inputs t)) :
    Matching (accepted p inputs) (answered p inputs) (fun cmd id => id = cmd.cmdId)
      (fun y v => ∃ d, InOrder (channel directionOf (accepted p inputs) d) (popped p inputs d) y v) :=
  Matching.channels (matching_popped p inputs) (fun t _ => answers_eq_some (hArb t)) fun _ _ _ => fifoPop_unique

include hEngine hRoom

theorem matching_completed (d : Direction) :
    Follows (channel directionOf (accepted p inputs) d) (completed inputs d) (fun _ _ => True) :=
  matching_of_le fun t => length_started (fun u _ => hRoom d u) ▸ hEngine d t

/-- The response of a command comes after the completion of its transfer. -/
theorem completed_of_popped {d : Direction} {y v : Nat}
    (h : InOrder (channel directionOf (accepted p inputs) d) (popped p inputs d) y v) :
    ∃ w < v, InOrder (channel directionOf (accepted p inputs) d) (completed inputs d) y w := by
  obtain ⟨_, hy, hv, hNumber⟩ := h
  have hCount := run_toPop hEngine (t := v) fun u _ => hRoom d u
  have hPop := (fifoPop_iff (toPop_le hEngine fun u _ => hRoom d u)).mpr hv
  have hPos := of_decide_eq_true (Bool.and_eq_true_iff.mp hPop).1
  have hDone : (eventsOf (popped p inputs d) v).length < (eventsOf (completed inputs d) v).length := by omega
  obtain ⟨w, hwv, hw, hLength⟩ := exists_event hDone
  obtain ⟨_, hUnit⟩ := Option.ne_none_iff_exists'.mp hw
  obtain ⟨y', hLink⟩ := (matching_completed hEngine hRoom d).caused hUnit
  obtain ⟨hyw, hy', _, hNumber'⟩ := hLink
  obtain rfl := eq_of_length_eventsOf hy hy' (hNumber.trans (hLength.symm.trans hNumber'.symm))
  exact ⟨w, hwv, hyw, hy, hw, hNumber'⟩

/-- If the engine completes all transfers and the arbiter is fair, every command has a response. -/
theorem total_popped {d : Direction}
    (hComplete : ∀ {n t}, n < (eventsOf (started inputs d) t).length →
      ∃ u, n < (eventsOf (completed inputs d) u).length)
    (hFair : ∀ t, ∃ u, t ≤ u ∧ (fifoRespAvail (runAt p inputs u) d = true → (inputs u).respIdx = d)) :
    AllFollowed (channel directionOf (accepted p inputs) d) (popped p inputs d) := by
  refine total_of_queue PspinCmd.cmdId (fun t => (runAt p inputs t).respFifo d) rfl (fun _ => respFifo_step d) ?_
  intro t hQueue
  by_contra hNever
  push Not at hNever
  -- the first id waits for a completion that comes, and from then on the counter is not zero
  have hWaiting := length_popped_add_queue p inputs d t
  have hPos := List.length_pos_iff.mpr hQueue
  obtain ⟨u, hu⟩ := hComplete (n := (eventsOf (popped p inputs d) t).length) (t := t)
    (by rw [length_started fun u _ => hRoom d u]; omega)
  obtain ⟨v, huv, hIdx⟩ := hFair (max t u)
  have hSilent : eventsOf (popped p inputs d) v = eventsOf (popped p inputs d) t :=
    eventsOf_of_silent hNever (Nat.le_trans (Nat.le_max_left t u) huv)
  have hCount := run_toPop hEngine (t := v) fun u _ => hRoom d u
  have hMono := (eventsOf_mono (completed inputs d) (Nat.le_trans (Nat.le_max_right t u) huv)).length_le
  rw [hSilent] at hCount
  have hAvail : fifoRespAvail (runAt p inputs v) d = true := decide_eq_true (by omega)
  have hPop : fifoPop (runAt p inputs v) (inputs v) d = true := by
    rw [fifoPop, hAvail, decide_eq_true (hIdx hAvail).symm]
    rfl
  exact (fifoPop_iff (toPop_le hEngine fun u _ => hRoom d u)).mp hPop
    (hNever v (Nat.le_trans (Nat.le_max_left t u) huv))

end Room

/-- What the engine does with a transfer of no bytes: it takes it and never completes it. -/
def EngineDropsEmpty (inputs : Nat → Input numCmds) : Prop := ∀ d t, (eventsOf (completed inputs d) t).length ≤
  ((eventsOf (started inputs d) t).filter fun xfer => decide (xfer.numBytes ≠ 0)).length

/-- Each transfer of no bytes leaves one command of its direction without a response for ever. -/
theorem unanswered_of_empty (hEngine : EngineDropsEmpty inputs)
    (hRoom : ∀ d t, ((runAt p inputs t).respFifo d).length < p.respFifoDepth) (d : Direction) (t : Nat) :
    (eventsOf (popped p inputs d) t).length +
        ((eventsOf (started inputs d) t).filter fun xfer => decide (xfer.numBytes = 0)).length ≤
      (eventsOf (channel directionOf (accepted p inputs) d) t).length := by
  have hSound : EngineSound inputs := fun d t => (hEngine d t).trans (List.length_filter_le _ _)
  have hCount := run_toPop hSound (t := t) fun u _ => hRoom d u
  have hStarted := length_started (p := p) (d := d) (t := t) fun u _ => hRoom d u
  have hSplit := List.length_eq_length_filter_add (l := eventsOf (started inputs d) t)
    fun xfer => decide (xfer.numBytes = 0)
  have hDone := hEngine d t
  simp only [← decide_not] at hSplit
  simp only [ne_eq] at hDone
  omega

end Runs

end FPsPIN.SocDma
