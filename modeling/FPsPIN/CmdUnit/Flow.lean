import FPsPIN.CmdUnit.Block

/-!
# Commands and responses through the block

A command leaves the register of its cluster in the cycle in which the
interface that it names takes it. The requests in flight of an interface are
those without a response that has left the buffer; they never exceed the size
of the buffer minus one, so a response always finds room if an interface gives
no more responses than it has taken commands.
-/

namespace FPsPIN.CmdUnit

open CommonCells Config Events Run

variable {p : Params} {numCmds : Nat}

section Cycle

variable (s : State p numCmds) (i : Input p numCmds)

def handsOver (c : ClusterId p) : Option (PspinCmd numCmds) :=
  if i.cmdValid c && cmdReady s c then some (i.cmd c) else none

def takes (c : ClusterId p) : Option (PspinCmd numCmds) := if clusterCmdReady s i c then clusterCmd s c else none

def accepts (j : IntfId p) : Option (PspinCmd numCmds) :=
  if intfValid s j && i.intfReady j then intfCmd s i j else none

def answers (j : IntfId p) : Option (PspinCmdId numCmds) :=
  if i.intfCmdRespValid j then some (i.intfCmdResp j) else none

def grants (j : IntfId p) : Option (PspinCmdId numCmds) :=
  if respBufferPop s i j then (s.respFifo j).head? else none

structure Arbitrates : Prop where
  cmd : ∀ j c, intfMuxValid s j c = true → intfMuxValid s j (i.cmdIdx j) = true
  resp : ∀ j, respBufferValid s j = true → respBufferValid s i.respIdx = true

def Crosses (c : ClusterId p) (j : IntfId p) : Prop := ∃ cmd, takes s i c = some cmd ∧ cmd.intfId = j.val

theorem spill_step (c : ClusterId p) :
    (takes s i c).toList ++ ((step s i).clusterSpill c).contents =
      (s.clusterSpill c).contents ++ (handsOver s i c).toList :=
  (s.clusterSpill c).dataO_append_contents_step (i.cmdValid c) (i.cmd c) (clusterCmdReady s i c)

theorem reqPush_eq (j : IntfId p) : reqPush s i j = (intfValid s j && i.intfReady j) := by
  rw [reqPush, cmdArbReady, intfValid]
  cases cmdArbValid s j <;> cases reqHasSpace s j <;> cases i.intfReady j <;> rfl

variable {s i}

theorem cmdArbValid_eq_true {j : IntfId p} : cmdArbValid s j = true ↔ ∃ c, intfMuxValid s j c = true := by
  rw [cmdArbValid, List.any_eq_true]
  exact ⟨fun ⟨c, _, hc⟩ => ⟨c, hc⟩, fun ⟨c, hc⟩ => ⟨c, List.mem_finRange c, hc⟩⟩

theorem intfMuxValid_eq_true {j : IntfId p} {c : ClusterId p} :
    intfMuxValid s j c = true ↔ ∃ cmd, clusterCmd s c = some cmd ∧ cmd.intfId = j.val := by
  rw [intfMuxValid, Option.any_eq_true]
  simp only [beq_iff_eq]

theorem takes_eq_some {c : ClusterId p} {cmd : PspinCmd numCmds} :
    takes s i c = some cmd ↔ clusterCmd s c = some cmd ∧
      ∃ h : cmd.intfId < p.numCmdInterfaces, cmdArbReady s i ⟨cmd.intfId, h⟩ = true ∧
        c = i.cmdIdx ⟨cmd.intfId, h⟩ := by
  rw [takes, ite_eq_iff]
  constructor
  · rintro (⟨hReady, hCmd⟩ | ⟨_, hNone⟩)
    · rw [clusterCmdReady, hCmd, Option.any_some] at hReady
      split at hReady
      · exact ⟨hCmd, ‹_›, by simpa only [intfMuxReady, Bool.and_eq_true, decide_eq_true_eq] using hReady⟩
      · cases hReady
    · cases hNone
  · rintro ⟨hCmd, hIntf, hReady, hIdx⟩
    refine .inl ⟨?_, hCmd⟩
    rw [clusterCmdReady, hCmd, Option.any_some, dif_pos hIntf, intfMuxReady, hReady, Bool.true_and]
    exact decide_eq_true hIdx

theorem accepts_eq_some (h : Arbitrates s i) {j : IntfId p} {cmd : PspinCmd numCmds} :
    accepts s i j = some cmd ↔ takes s i (i.cmdIdx j) = some cmd ∧ cmd.intfId = j.val := by
  rw [accepts, ← reqPush_eq, ite_eq_iff, takes_eq_some]
  constructor
  · rintro (⟨hPush, hCmd⟩ | ⟨_, hNone⟩)
    · rw [reqPush, Bool.and_eq_true] at hPush
      obtain ⟨c, hc⟩ := cmdArbValid_eq_true.mp hPush.1
      obtain ⟨cmd', hCmd', hIntf⟩ := intfMuxValid_eq_true.mp (h.cmd j c hc)
      obtain rfl : cmd' = cmd := Option.some.inj (hCmd'.symm.trans hCmd)
      have hLt : cmd'.intfId < p.numCmdInterfaces := hIntf ▸ j.isLt
      have hj : (⟨cmd'.intfId, hLt⟩ : IntfId p) = j := Fin.ext hIntf
      exact ⟨⟨hCmd, hLt, hj ▸ hPush.2, by rw [hj]⟩, hIntf⟩
    · cases hNone
  · rintro ⟨⟨hCmd, hLt, hReady, _⟩, hIntf⟩
    obtain rfl : j = ⟨cmd.intfId, hLt⟩ := Fin.ext hIntf.symm
    have hMux := intfMuxValid_eq_true.mpr ⟨cmd, hCmd, hIntf⟩
    exact .inl ⟨by rw [reqPush, cmdArbValid_eq_true.mpr ⟨_, hMux⟩, hReady]; rfl, hCmd⟩

theorem accepts_of_crosses (h : Arbitrates s i) {c : ClusterId p} {j : IntfId p} {cmd : PspinCmd numCmds}
    (hTakes : takes s i c = some cmd) (hIntf : cmd.intfId = j.val) :
    c = i.cmdIdx j ∧ accepts s i j = some cmd := by
  obtain ⟨_, hLt, _, hIdx⟩ := takes_eq_some.mp hTakes
  obtain rfl : j = ⟨cmd.intfId, hLt⟩ := Fin.ext hIntf.symm
  exact ⟨hIdx, (accepts_eq_some h).mpr ⟨hIdx ▸ hTakes, rfl⟩⟩

theorem clusterCmd_step {c : ClusterId p} {cmd : PspinCmd numCmds} (hTakes : takes s i c = none)
    (hCmd : clusterCmd s c = some cmd) : clusterCmd (step s i) c = some cmd := by
  have hLaw := spill_step s i c
  rw [hTakes, Option.toList_none, List.nil_append] at hLaw
  rw [clusterCmd, SpillRegister.dataO_eq_head?] at hCmd ⊢
  rw [hLaw, List.head?_append, hCmd]
  rfl

theorem reqPush_iff (h : Arbitrates s i) {j : IntfId p} : reqPush s i j = true ↔ accepts s i j ≠ none := by
  rw [accepts, ← reqPush_eq]
  constructor
  · intro hPush
    rw [if_pos hPush]
    obtain ⟨c, hc⟩ := cmdArbValid_eq_true.mp (Bool.and_eq_true_iff.mp hPush).1
    obtain ⟨cmd, hCmd, _⟩ := intfMuxValid_eq_true.mp (h.cmd j c hc)
    exact Option.ne_none_iff_exists'.mpr ⟨cmd, hCmd⟩
  · intro hAccepts
    by_contra hPush
    exact hAccepts (if_neg hPush)

theorem respBufferPop_iff {j : IntfId p} : respBufferPop s i j = true ↔ grants s i j ≠ none := by
  rw [grants]
  constructor
  · intro hPop
    rw [if_pos hPop]
    have hValid := (Bool.and_eq_true_iff.mp hPop).2
    rw [respBufferValid, Bool.not_eq_true', List.isEmpty_eq_false_iff] at hValid
    exact fun hNone => hValid (List.head?_eq_none_iff.mp hNone)
  · intro hGrants
    by_contra hPop
    exact hGrants (if_neg hPop)

theorem grants_unique {j k : IntfId p} (hj : grants s i j ≠ none) (hk : grants s i k ≠ none) : j = k := by
  have hPopJ := (Bool.and_eq_true_iff.mp (respBufferPop_iff.mpr hj)).1
  have hPopK := (Bool.and_eq_true_iff.mp (respBufferPop_iff.mpr hk)).1
  exact (of_decide_eq_true hPopJ).trans (of_decide_eq_true hPopK).symm

theorem reqHasSpace_eq (j : IntfId p) (h : (s.reqFifo j).length ≤ p.intfRespBuffSize - 1) :
    reqHasSpace s j = decide ((s.reqFifo j).length < p.intfRespBuffSize - 1) := by
  have hLe : p.intfRespBuffSize ≤ 2 ^ Nat.clog 2 p.intfRespBuffSize := Nat.le_pow_clog Nat.one_lt_two _
  have hPos := p.intfRespBuffSize_pos
  rw [reqHasSpace, reqUsage, Nat.mod_eq_of_lt (by omega)]

theorem length_reqFifo_of_push {j : IntfId p} (h : (s.reqFifo j).length ≤ p.intfRespBuffSize - 1)
    (hPush : reqPush s i j = true) : (s.reqFifo j).length < p.intfRespBuffSize - 1 := by
  have hSpace := (Bool.and_eq_true_iff.mp (Bool.and_eq_true_iff.mp hPush).2).2
  rw [reqHasSpace_eq j h] at hSpace
  exact of_decide_eq_true hSpace

/-- The requests in flight change with the commands that go out and the responses that leave. -/
theorem reqFifo_step (h : Arbitrates s i) {j : IntfId p} (hLe : (s.reqFifo j).length ≤ p.intfRespBuffSize - 1)
    (hPop : grants s i j ≠ none → s.reqFifo j ≠ []) :
    (grants s i j).toList.length + ((step s i).reqFifo j).length =
      (s.reqFifo j).length + (accepts s i j).toList.length := by
  rw [length_toList_eq respBufferPop_iff, length_toList_eq (reqPush_iff h)]
  refine length_fifoV3Step (fun hPush => ?_) (fun hResp => hPop (respBufferPop_iff.mp hResp))
  exact Nat.lt_of_lt_of_le (length_reqFifo_of_push hLe hPush) (Nat.sub_le _ _)

theorem respFifo_step {j : IntfId p} (hRoom : (s.respFifo j).length < p.intfRespBuffSize) :
    (grants s i j).toList ++ (step s i).respFifo j = s.respFifo j ++ (answers i j).toList :=
  head_append_fifoV3Step fun _ => hRoom

end Cycle

section Runs

variable (inputs : Nat → Input p numCmds)

def runAt (t : Nat) : State p numCmds := stateAt step (init p numCmds) inputs t

def handedOver (c : ClusterId p) (t : Nat) : Option (PspinCmd numCmds) := handsOver (runAt inputs t) (inputs t) c

def taken (c : ClusterId p) (t : Nat) : Option (PspinCmd numCmds) := takes (runAt inputs t) (inputs t) c

def accepted (j : IntfId p) (t : Nat) : Option (PspinCmd numCmds) := accepts (runAt inputs t) (inputs t) j

def answered (j : IntfId p) (t : Nat) : Option (PspinCmdId numCmds) := answers (inputs t) j

def granted (j : IntfId p) (t : Nat) : Option (PspinCmdId numCmds) := grants (runAt inputs t) (inputs t) j

def broadcast (t : Nat) : Option (PspinCmdId numCmds) := cmdResp (runAt inputs t)

theorem taken_step (c : ClusterId p) (t : Nat) :
    (taken inputs c t).toList ++ ((runAt inputs (t + 1)).clusterSpill c).contents =
      ((runAt inputs t).clusterSpill c).contents ++ ((handedOver inputs c t).map fun cmd => cmd).toList := by
  rw [Option.map_id']
  exact spill_step (runAt inputs t) (inputs t) c

theorem matching_taken (c : ClusterId p) :
    Follows (handedOver inputs c) (taken inputs c) (fun cmd cmd' => cmd' = cmd) :=
  matching_of_queue (fun cmd => cmd) (fun t => ((runAt inputs t).clusterSpill c).contents) rfl
    (taken_step inputs c)

theorem length_reqFifo_le (j : IntfId p) (t : Nat) :
    ((runAt inputs t).reqFifo j).length ≤ p.intfRespBuffSize - 1 := by
  induction t with
  | zero => exact Nat.zero_le _
  | succ t ih =>
    exact length_fifoV3Step_le_of_push ih fun hPush _ => length_reqFifo_of_push ih hPush

variable {inputs} (hArb : ∀ t, Arbitrates (runAt inputs t) (inputs t))
include hArb

/-- The requests in flight and the buffered responses, as long as no interface has given a response too many. -/
theorem flow {j : IntfId p} {t : Nat}
    (hAnswers : ∀ u < t, (eventsOf (answered inputs j) u).length ≤ (eventsOf (accepted inputs j) u).length) :
    (eventsOf (granted inputs j) t).length + ((runAt inputs t).reqFifo j).length =
        (eventsOf (accepted inputs j) t).length ∧
      eventsOf (granted inputs j) t ++ (runAt inputs t).respFifo j = eventsOf (answered inputs j) t := by
  induction t with
  | zero => exact ⟨rfl, rfl⟩
  | succ t ih =>
    obtain ⟨hReq, hResp⟩ := ih fun u hu => hAnswers u (Nat.lt_succ_of_lt hu)
    have hLe := length_reqFifo_le inputs j t
    have hCount := congrArg List.length hResp
    have hBefore := hAnswers t (Nat.lt_succ_self t)
    have hPos := p.intfRespBuffSize_pos
    rw [List.length_append] at hCount
    have hPop : granted inputs j t ≠ none → (runAt inputs t).reqFifo j ≠ [] := by
      intro hGrant hEmpty
      have hBuffer : (runAt inputs t).respFifo j = [] := by
        rw [hEmpty, List.length_nil] at hReq
        exact List.length_eq_zero_iff.mp (by omega)
      rw [granted, grants, hBuffer] at hGrant
      exact hGrant (ite_self none)
    have hReqStep := reqFifo_step (hArb t) hLe hPop
    have hRespStep := respFifo_step (s := runAt inputs t) (i := inputs t) (j := j) (by omega)
    rw [eventsOf_succ, eventsOf_succ, eventsOf_succ, ← hResp, List.length_append, List.length_append]
    constructor
    · change _ + (grants (runAt inputs t) (inputs t) j).toList.length +
        ((step (runAt inputs t) (inputs t)).reqFifo j).length =
        _ + (accepts (runAt inputs t) (inputs t) j).toList.length
      omega
    · rw [List.append_assoc, List.append_assoc]
      exact congrArg _ hRespStep

theorem outstanding_le {j : IntfId p} {t : Nat}
    (hAnswers : ∀ u < t, (eventsOf (answered inputs j) u).length ≤ (eventsOf (accepted inputs j) u).length) :
    (eventsOf (accepted inputs j) t).length ≤ (eventsOf (granted inputs j) t).length + (p.intfRespBuffSize - 1) ∧
      (eventsOf (granted inputs j) t).length ≤ (eventsOf (answered inputs j) t).length := by
  obtain ⟨hReq, hResp⟩ := flow hArb hAnswers
  have hLe := length_reqFifo_le inputs j t
  rw [← hResp, List.length_append]
  omega

theorem matching_accepted :
    Matching (fun x : ClusterId p × Nat => taken inputs x.1 x.2)
      (fun y : IntfId p × Nat => accepted inputs y.1 y.2)
      (fun cmd cmd' => cmd' = cmd) (fun x y => x.2 = y.2 ∧ Crosses (runAt inputs x.2) (inputs x.2) x.1 y.1) where
  agree := by
    rintro ⟨c, t⟩ ⟨j, _⟩ ⟨rfl, cmd, hTakes, hIntf⟩
    exact ⟨cmd, cmd, hTakes, (accepts_of_crosses (hArb t) hTakes hIntf).2, rfl⟩
  caused := by
    rintro ⟨j, t⟩ cmd hAccepts
    obtain ⟨hTakes, hIntf⟩ := (accepts_eq_some (hArb t)).mp hAccepts
    exact ⟨⟨(inputs t).cmdIdx j, t⟩, rfl, cmd, hTakes, hIntf⟩
  cause_unique := by
    rintro ⟨c, t⟩ ⟨c', _⟩ ⟨j, _⟩ ⟨rfl, cmd, hTakes, hIntf⟩ ⟨rfl, cmd', hTakes', hIntf'⟩
    have hIdx := (accepts_of_crosses (hArb _) hTakes hIntf).1
    have hIdx' := (accepts_of_crosses (hArb _) hTakes' hIntf').1
    exact Prod.ext (hIdx.trans hIdx'.symm) rfl
  effect_unique := by
    rintro ⟨c, t⟩ ⟨j, _⟩ ⟨j', _⟩ ⟨rfl, cmd, hTakes, hIntf⟩ ⟨rfl, cmd', hTakes', hIntf'⟩
    obtain rfl : cmd = cmd' := Option.some.inj (hTakes.symm.trans hTakes')
    exact Prod.ext (Fin.ext (hIntf.symm.trans hIntf')) rfl

omit hArb in
theorem respSpill_b (t : Nat) : (runAt inputs t).respSpill.b = none := by
  induction t with
  | zero => rfl
  | succ t ih => exact congrArg SpillRegister.b (SpillRegister.step_of_readyI _ _ _ ih)

theorem broadcast_succ {t : Nat} {id : PspinCmdId numCmds} :
    broadcast inputs (t + 1) = some id ↔ ∃ j, granted inputs j t = some id := by
  have hNext : broadcast inputs (t + 1) =
      if respArbValid (runAt inputs t) then some (respArbData (runAt inputs t) (inputs t)) else none :=
    congrArg SpillRegister.dataO (SpillRegister.step_of_readyI _ _ _ (respSpill_b t))
  rw [hNext, ite_eq_iff]
  constructor
  · rintro (⟨hValid, hData⟩ | ⟨_, hNone⟩)
    · obtain ⟨j, _, hj⟩ := List.any_eq_true.mp hValid
      have hChosen := (hArb t).resp j hj
      have hQueue : (runAt inputs t).respFifo (inputs t).respIdx ≠ [] := by
        rwa [respBufferValid, Bool.not_eq_true', List.isEmpty_eq_false_iff] at hChosen
      obtain ⟨first, rest, hFirst⟩ := List.exists_cons_of_ne_nil hQueue
      refine ⟨(inputs t).respIdx, ?_⟩
      rw [respArbData, hFirst] at hData
      rw [granted, grants, respBufferPop, hChosen, decide_eq_true rfl, Bool.and_true, if_pos rfl, hFirst]
      exact hData
    · cases hNone
  · rintro ⟨j, hGranted⟩
    have hPop := respBufferPop_iff.mpr (Option.ne_none_iff_exists'.mpr ⟨id, hGranted⟩)
    obtain ⟨hIdx, hValid⟩ := Bool.and_eq_true_iff.mp hPop
    obtain rfl := of_decide_eq_true hIdx
    rw [granted, grants, if_pos hPop] at hGranted
    refine .inl ⟨List.any_eq_true.mpr ⟨_, List.mem_finRange _, hValid⟩, ?_⟩
    rw [respArbData, hGranted]
    rfl

theorem matching_broadcast :
    Matching (fun y : IntfId p × Nat => granted inputs y.1 y.2) (broadcast inputs) (fun id id' => id' = id)
      (fun y z => z = y.2 + 1 ∧ granted inputs y.1 y.2 ≠ none) where
  agree := by
    rintro ⟨j, t⟩ _ ⟨rfl, hGranted⟩
    obtain ⟨id, hId⟩ := Option.ne_none_iff_exists'.mp hGranted
    exact ⟨id, id, hId, (broadcast_succ hArb).mpr ⟨j, hId⟩, rfl⟩
  caused := by
    rintro (_ | t) id hId
    · cases hId
    · obtain ⟨j, hGranted⟩ := (broadcast_succ hArb).mp hId
      exact ⟨⟨j, t⟩, rfl, Option.ne_none_iff_exists'.mpr ⟨id, hGranted⟩⟩
  cause_unique := by
    rintro ⟨j, t⟩ ⟨j', t'⟩ z ⟨rfl, hj⟩ ⟨hz, hj'⟩
    obtain rfl : t = t' := Nat.succ.inj hz
    exact Prod.ext (grants_unique hj hj') rfl
  effect_unique := by
    rintro y z z' ⟨rfl, _⟩ ⟨rfl, _⟩
    rfl

section Answered

variable (hAnswers : ∀ j t, (eventsOf (answered inputs j) t).length ≤ (eventsOf (accepted inputs j) t).length)
include hAnswers

theorem length_respFifo_lt (j : IntfId p) (t : Nat) :
    ((runAt inputs t).respFifo j).length < p.intfRespBuffSize := by
  obtain ⟨hReq, hResp⟩ := flow hArb (t := t) fun u _ => hAnswers j u
  have hLe := length_reqFifo_le inputs j t
  have hBefore := hAnswers j t
  have hPos := p.intfRespBuffSize_pos
  rw [← hResp, List.length_append] at hBefore
  omega

theorem granted_step (j : IntfId p) (t : Nat) :
    (granted inputs j t).toList ++ (runAt inputs (t + 1)).respFifo j =
      (runAt inputs t).respFifo j ++ ((answered inputs j t).map fun id => id).toList := by
  rw [Option.map_id']
  exact respFifo_step (length_respFifo_lt hArb hAnswers j t)

theorem matching_granted (j : IntfId p) :
    Follows (answered inputs j) (granted inputs j) (fun id id' => id' = id) :=
  matching_of_queue (fun id => id) (fun t => (runAt inputs t).respFifo j) rfl (granted_step hArb hAnswers j)

theorem total_granted {j : IntfId p}
    (hFair : ∀ t, ∃ u, t ≤ u ∧ (respBufferValid (runAt inputs u) j = true → (inputs u).respIdx = j)) :
    AllFollowed (answered inputs j) (granted inputs j) := by
  have hStep := granted_step hArb hAnswers j
  refine total_of_queue (fun id => id) (fun t => (runAt inputs t).respFifo j) rfl hStep fun _ => ?_
  refine served_of_helped (fun id => id) (fun t => (runAt inputs t).respFifo j) hStep fun t => ?_
  obtain ⟨u, htu, hIdx⟩ := hFair t
  refine ⟨u, htu, fun hQueue => respBufferPop_iff.mp ?_⟩
  have hValid : respBufferValid (runAt inputs u) j = true := by
    rwa [respBufferValid, Bool.not_eq_true', List.isEmpty_eq_false_iff]
  rw [respBufferPop, hValid, decide_eq_true (hIdx hValid).symm]
  rfl

end Answered

end Runs

end FPsPIN.CmdUnit
