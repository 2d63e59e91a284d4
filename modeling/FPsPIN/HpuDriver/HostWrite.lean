import FPsPIN.CmdDescr
import FPsPIN.HpuDriver.CommandIds

/-!
# The call of spin_write_to_host

Stores fill the command registers, and a load issues the command. What a
command says is the effect of the granted accesses on the registers, one after
another. The call stores every field that its command has, so the words that
earlier commands left in the registers do not matter.
-/

namespace FPsPIN.HpuDriver.CmdFrontend

open CmdDescr Config Run

variable {p : Params}

inductive Access where
  | store (add wdata : BitVec 32)
  | load (add : BitVec 32)
deriving DecidableEq

/-- Constant base_addr of the runtime. -/
def baseAddr : BitVec 32 := 0x1b205000

def spinWriteToHost (hostAddr userData : BitVec 64) : List Access :=
  let hostAddressHigh := (hostAddr >>> 32).setWidth 32
  let hostAddressLow := hostAddr.setWidth 32
  let dataHigh := (userData >>> 32).setWidth 32
  let dataLow := userData.setWidth 32
  let sizeAndDirection : BitVec 32 := (0x8 <<< 1) ||| 0x1
  let cmdInfo : BitVec 32 := 4
  [.store (baseAddr + 148) hostAddressHigh, .store (baseAddr + 144) hostAddressLow,
    .store (baseAddr + 152) sizeAndDirection, .store (baseAddr + 156) dataLow, .store (baseAddr + 160) dataHigh,
    .store (baseAddr + 140) cmdInfo, .load (baseAddr + 128)]

/-- The part of the command register that the core defines. -/
structure CmdRegs where
  intfId : Nat
  cmdType : PspinCmdType
  words : Fin 19 → BitVec 32
  generateEvent : Bool

def regs {numCmds : Nat} (cmd : PspinCmd numCmds) : CmdRegs :=
  ⟨cmd.intfId, cmd.cmdType, cmd.words, cmd.generateEvent⟩

def idxOf (add : BitVec 32) : Nat := (add.extractLsb' 2 5).toNat

namespace CmdRegs

variable (r : CmdRegs)

def define (wdata : BitVec 32) : CmdRegs where
  intfId :=
    match (wdata.extractLsb' 1 2).toNat with
    | 0 => cmdEdmaId
    | 1 => cmdNicOutboundId
    | 2 => cmdHostdirectId
    | _ => r.intfId
  cmdType :=
    match (wdata.extractLsb' 1 2).toNat with
    | 0 => .hostMemCpy
    | 1 => .nicSend
    | 2 => .hostDirect
    | _ => r.cmdType
  words := r.words
  generateEvent := wdata.getLsbD 0

def setWord (w : Nat) (wdata : BitVec 32) : CmdRegs :=
  if h : w < 19 then { r with words := Function.update r.words ⟨w, h⟩ wdata } else r

def access : Access → CmdRegs
  | .load _ => r
  | .store add wdata =>
    if idxOf add = 3 then r.define wdata
    else if 4 ≤ idxOf add ∧ idxOf add ≤ 10 then r.setWord (idxOf add - 4) wdata
    else r

end CmdRegs

section Cycle

variable (s : State p) (i : Input p)

def accessOf : Access := if i.wen then .load i.add else .store i.add i.wdata

def grants : List Access := if gnt s i then [accessOf i] else []

variable {s i}

theorem regs_cmdD_of_quiet (hDefines : defines s i = false) (hWord : wordWrite s i = none) :
    regs (cmdD s i) = regs s.cmdQ := by
  simp only [regs, cmdD, hDefines, hWord, Bool.false_eq_true, if_false]

theorem quiet_of_busy (h : s.stateQ ≠ .ready ∨ i.req = false) : defines s i = false ∧ wordWrite s i = none := by
  have hNot : (i.req && s.stateQ == .ready) = false := by
    rcases h with hState | hReq
    · rw [beq_false_of_ne hState, Bool.and_false]
    · rw [hReq, Bool.false_and]
  constructor
  · rw [defines, hNot]
    rfl
  · refine dif_neg ?_
    rw [hNot]
    simp

theorem access_of_idx {r : CmdRegs} (h : i.wen = true ∨ addIdx i < 3 ∨ 10 < addIdx i) :
    r.access (accessOf i) = r := by
  rw [accessOf]
  cases hWen : i.wen with
  | true => rfl
  | false =>
    have hIdx : addIdx i < 3 ∨ 10 < addIdx i := h.resolve_left (Bool.eq_false_iff.mp hWen)
    change (if idxOf i.add = 3 then _ else if 4 ≤ idxOf i.add ∧ idxOf i.add ≤ 10 then _ else r) = r
    have hSame : idxOf i.add = addIdx i := rfl
    rw [hSame, if_neg (by omega), if_neg (by omega)]

theorem idx_of_issued (h : cmdIssued i = true) : addIdx i = 0 ∧ i.wen = true := by
  simp only [cmdIssued, Bool.and_eq_true, beq_iff_eq] at h
  exact ⟨h.1.2, h.2⟩

theorem idx_of_waiting (h : waitIssued i = true) : addIdx i = 1 := by
  simp only [waitIssued, Bool.and_eq_true, beq_iff_eq] at h
  exact h.1.2

theorem regs_cmdD_define (hState : s.stateQ = .ready) (hReq : i.req = true) (hWen : i.wen = false)
    (hIdx : addIdx i = 3) : regs (cmdD s i) = (regs s.cmdQ).access (accessOf i) := by
  have hDefines : defines s i = true := by simp [defines, hReq, hState, hIdx, hWen]
  have hWord : wordWrite s i = none := dif_neg (by simp [hIdx])
  have hAccess : accessOf i = .store i.add i.wdata := by rw [accessOf, hWen]; rfl
  have hSame : idxOf i.add = addIdx i := rfl
  rw [hAccess, CmdRegs.access, hSame, if_pos hIdx]
  simp only [regs, cmdD, hDefines, hWord, if_true]
  rfl

theorem regs_cmdD_word (hState : s.stateQ = .ready) (hReq : i.req = true) (hWen : i.wen = false)
    (hLow : 4 ≤ addIdx i) (hHigh : addIdx i ≤ 10) : regs (cmdD s i) = (regs s.cmdQ).access (accessOf i) := by
  have hDefines : defines s i = false := by
    have hNe : (addIdx i == 3) = false := beq_false_of_ne (by omega)
    simp [defines, hNe]
  have hWord : wordWrite s i = some ⟨addIdx i - 4, by omega⟩ := dif_pos (by simp [hReq, hState, hWen, hLow, hHigh])
  have hAccess : accessOf i = .store i.add i.wdata := by rw [accessOf, hWen]; rfl
  have hSame : idxOf i.add = addIdx i := rfl
  rw [hAccess, CmdRegs.access, hSame, if_neg (by omega), if_pos ⟨hLow, hHigh⟩, CmdRegs.setWord, dif_pos (by omega)]
  simp only [regs, cmdD, hDefines, hWord, Bool.false_eq_true, if_false]

theorem regs_cmdD_ready (hState : s.stateQ = .ready) (hReq : i.req = true) :
    regs (cmdD s i) = (regs s.cmdQ).access (accessOf i) := by
  by_cases hOther : i.wen = true ∨ addIdx i < 3 ∨ 10 < addIdx i
  · rw [access_of_idx hOther]
    apply regs_cmdD_of_quiet
    · rw [defines]
      rcases hOther with hWen | hIdx
      · simp [hWen]
      · simp [show addIdx i ≠ 3 by omega]
    · refine dif_neg ?_
      simp only [Bool.and_eq_true, decide_eq_true_eq, Bool.not_eq_true']
      rcases hOther with hWen | hIdx
      · simp [hWen]
      · omega
  · push Not at hOther
    obtain ⟨hWen, hLow, hHigh⟩ := hOther
    rw [ne_eq, Bool.not_eq_true] at hWen
    rcases Nat.lt_or_eq_of_le hLow with hWord | hDefine
    · exact regs_cmdD_word hState hReq hWen hWord hHigh
    · exact regs_cmdD_define hState hReq hWen hDefine.symm

theorem idx_of_not_granted (h : s.stateQ = .ready) (hReq : i.req = true) (hGnt : gnt s i = false) : addIdx i < 3 := by
  by_contra hIdx
  have hIssued : cmdIssued i = false := Bool.eq_false_iff.mpr fun hEq => hIdx (by rw [(idx_of_issued hEq).1]; decide)
  have hWait : waitIssued i = false := Bool.eq_false_iff.mpr fun hEq => hIdx (by rw [idx_of_waiting hEq]; decide)
  rw [gnt, hReq, stateD_ready_not_issued s i h hIssued, hWait] at hGnt
  cases hGnt

theorem regs_step (h : Held s i) : regs (cmdD s i) = (grants s i).foldl CmdRegs.access (regs s.cmdQ) := by
  have hGrants : (grants s i).foldl CmdRegs.access (regs s.cmdQ) =
      if gnt s i then (regs s.cmdQ).access (accessOf i) else regs s.cmdQ := by
    rw [grants]
    cases gnt s i <;> rfl
  rw [hGrants]
  by_cases hServed : s.stateQ = .ready ∧ i.req = true
  · obtain ⟨hState, hReq⟩ := hServed
    rw [regs_cmdD_ready hState hReq]
    split_ifs with hGnt
    · rfl
    · exact access_of_idx (.inr (.inl (idx_of_not_granted hState hReq (Bool.eq_false_of_not_eq_true hGnt))))
  · have hQuiet : s.stateQ ≠ .ready ∨ i.req = false := by
      rw [not_and_or, Bool.not_eq_true] at hServed
      exact hServed
    obtain ⟨hDefines, hWord⟩ := quiet_of_busy hQuiet
    rw [regs_cmdD_of_quiet hDefines hWord]
    split_ifs with hGnt
    · -- the request that is granted is the one the frontend was busy with
      refine (access_of_idx ?_).symm
      cases hState : s.stateQ with
      | ready =>
        rw [gnt, hQuiet.resolve_left (fun hNe => hNe hState), Bool.false_and] at hGnt
        cases hGnt
      | waiting => exact .inr (.inl (by rw [idx_of_waiting (h.wait hState).1]; decide))
      | disabled => exact .inl (idx_of_issued (h.issue (.inl hState))).2
      | waitingBuffer => exact .inl (idx_of_issued (h.issue (.inr (.inl hState)))).2
      | waitingID => exact .inl (idx_of_issued (h.issue (.inr (.inr hState)))).2
    · rfl

theorem grant_of_push (hPush : cmdBuffPush s i = true) : grants s i = [.load i.add] ∧ idxOf i.add = 0 := by
  simp only [cmdBuffPush, Bool.and_eq_true] at hPush
  obtain ⟨⟨_, hIssued⟩, hReady⟩ := hPush
  obtain ⟨hIdx, hWen⟩ := idx_of_issued hIssued
  have hReq : i.req = true := by
    simp only [cmdIssued, Bool.and_eq_true] at hIssued
    exact hIssued.1.1
  refine ⟨?_, hIdx⟩
  rw [grants, gnt, hReq, hReady, accessOf, hWen]
  rfl

theorem push_of_grant (h : Held s i) (hIssued : cmdIssued i = true) (hGnt : gnt s i = true) :
    cmdBuffPush s i = true := by
  have hState : s.stateQ ≠ .waiting := fun hState => by
    have hNot := h.not_issued hState
    rw [hIssued] at hNot
    cases hNot
  rw [push_eq s i hState hIssued]
  rw [gnt, Bool.and_eq_true] at hGnt
  exact hGnt.2

end Cycle

section Runs

variable (s : Nat → State p) (i : Nat → Input p)

def grantedOn (a c : Nat) : List Access := window (fun t => grants (s t) (i t)) a c

/-- Accesses that are granted from cycle t on, the last of them in cycle u. -/
structure Granted (accesses : List Access) (t u : Nat) : Prop where
  le : t ≤ u
  accesses : grantedOn s i t (u + 1) = accesses
  returns : gnt (s u) (i u) = true

variable {s i} {hostAddr userData : BitVec 64} {t u : Nat}

theorem CoreRuns.regs_run (h : CoreRuns s i) (htu : t ≤ u) :
    regs (s u).cmdQ = (grantedOn s i t u).foldl CmdRegs.access (regs (s t).cmdQ) := by
  induction u, htu using Nat.le_induction with
  | base =>
    rw [grantedOn, window_self]
    rfl
  | succ u htu ih =>
    rw [grantedOn, window_succ _ htu, List.foldl_append, ← grantedOn, ← ih, ← regs_step (h.run_held u), h.next]
    rfl

section Issuing

variable {stores : List Access}

/-- The last access of a call is its load, the others are stores. -/
theorem Granted.split (h : Granted s i (stores ++ [.load (baseAddr + 128)]) t u) :
    grantedOn s i t u = stores ∧ accessOf (i u) = .load (baseAddr + 128) := by
  have hAll := h.accesses
  have hGrants : grants (s u) (i u) = [accessOf (i u)] := if_pos h.returns
  rw [grantedOn, window_succ _ h.le, ← grantedOn, hGrants] at hAll
  obtain ⟨hStores, hLast⟩ := List.append_inj' hAll rfl
  exact ⟨hStores, List.singleton_inj.mp hLast⟩

theorem Granted.pushes_at (hRun : CoreRuns s i) (h : Granted s i (stores ++ [.load (baseAddr + 128)]) t u)
    (hStores : ∀ add, .load add ∉ stores) : pushed s i t (u + 1) = [cmdD (s u) (i u)] := by
  obtain ⟨hBefore, hLoad⟩ := h.split
  have hNone : window (fun v => if cmdBuffPush (s v) (i v) then [cmdD (s v) (i v)] else []) t u = [] := by
    refine window_eq_nil fun v htv hvu => if_neg fun hPush => ?_
    have hMem : Access.load (i v).add ∈ grantedOn s i t u :=
      mem_window.mpr ⟨v, htv, hvu, by rw [(grant_of_push hPush).1]; exact List.mem_singleton_self _⟩
    rw [hBefore] at hMem
    exact hStores _ hMem
  have hWen : (i u).wen = true ∧ (i u).add = baseAddr + 128 := by
    rw [accessOf] at hLoad
    split_ifs at hLoad with hWen
    exact ⟨hWen, Access.load.inj hLoad⟩
  have hReq : (i u).req = true := by
    have hGnt := h.returns
    rw [gnt, Bool.and_eq_true] at hGnt
    exact hGnt.1
  have hIssued : cmdIssued (i u) = true := by
    rw [cmdIssued, addIdx, hReq, hWen.1, hWen.2]
    rfl
  rw [pushed, window_succ _ h.le, hNone, if_pos (push_of_grant (hRun.run_held u) hIssued h.returns)]
  rfl

/-- A call pushes one command: what its stores make of the registers. -/
theorem Granted.command (hRun : CoreRuns s i) (h : Granted s i (stores ++ [.load (baseAddr + 128)]) t u)
    (hStores : ∀ add, .load add ∉ stores) :
    ∃ cmd, pushed s i t (u + 1) = [cmd] ∧ regs cmd = stores.foldl CmdRegs.access (regs (s t).cmdQ) := by
  refine ⟨_, h.pushes_at hRun hStores, ?_⟩
  have hRegs : regs (cmdD (s u) (i u)) = regs (s (u + 1)).cmdQ := by
    rw [hRun.next]
    rfl
  rw [hRegs, hRun.regs_run (Nat.le_succ_of_le h.le), h.accesses, List.foldl_append]
  rfl

end Issuing

/-- What the call writes, whatever was in the registers before. -/
structure WritesToHost (hostAddr userData : BitVec 64) (r : CmdRegs) : Prop where
  intfId : r.intfId = cmdHostdirectId
  cmdType : r.cmdType = .hostDirect
  generateEvent : r.generateEvent = false
  addr : wordAt r.words 0 = hostAddr.setWidth 32 ∧ wordAt r.words 1 = (hostAddr >>> 32).setWidth 32
  size : wordAt r.words 2 = 17
  data : wordAt r.words 3 = userData.setWidth 32 ∧ wordAt r.words 4 = (userData >>> 32).setWidth 32

theorem writesToHost_call (r : CmdRegs) :
    WritesToHost hostAddr userData ((spinWriteToHost hostAddr userData).foldl CmdRegs.access r) :=
  ⟨rfl, rfl, rfl, ⟨rfl, rfl⟩, rfl, ⟨rfl, rfl⟩⟩

theorem WritesToHost.descr {r : CmdRegs} (h : WritesToHost hostAddr userData r) :
    (hostDirectCmd r.words).hostAddr = hostAddr ∧ (hostDirectCmd r.words).nicToHost = true ∧
      (hostDirectCmd r.words).immDataSize = 8 ∧ (hostDirectCmd r.words).immData.extractLsb' 0 64 = userData := by
  refine ⟨extract_pair (by decide) h.addr.1 h.addr.2, ?_, ?_, ?_⟩
  · change (descrBits r.words).getLsbD 64 = true
    rw [getLsbD_descrBits (w := 2) (b := 0) r.words (by decide) (by decide) rfl, h.size]
    rfl
  · have hSize : (hostDirectCmd r.words).immDataSize = (wordAt r.words 2).extractLsb' 1 9 := by
      apply BitVec.eq_of_getLsbD_eq
      intro k hk
      change ((descrBits r.words).extractLsb' 65 9).getLsbD k = _
      rw [BitVec.getLsbD_extractLsb', BitVec.getLsbD_extractLsb',
        getLsbD_descrBits (w := 2) (b := 1 + k) r.words (by decide) (by omega) (by omega)]
    rw [hSize, h.size]
    rfl
  · have hData := extract_pair (w := 3) (by decide) h.data.1 h.data.2
    rw [← hData]
    apply BitVec.eq_of_getLsbD_eq
    intro k hk
    change (((descrBits r.words).extractLsb' 96 512).extractLsb' 0 64).getLsbD k = _
    have hWide : 0 + k < 512 := by omega
    rw [BitVec.getLsbD_extractLsb', BitVec.getLsbD_extractLsb', BitVec.getLsbD_extractLsb', decide_eq_true hWide,
      Bool.true_and, Nat.zero_add]

/-- A call pushes one command, and its descriptor has the call's arguments. -/
theorem spinWriteToHost_command (hRun : CoreRuns s i) (h : Granted s i (spinWriteToHost hostAddr userData) t u) :
    ∃ cmd, pushed s i t (u + 1) = [cmd] ∧ WritesToHost hostAddr userData (regs cmd) := by
  have hCall : Granted s i ((spinWriteToHost hostAddr userData).dropLast ++ [.load (baseAddr + 128)]) t u := h
  obtain ⟨cmd, hPushed, hRegs⟩ := hCall.command hRun (by simp [spinWriteToHost])
  exact ⟨cmd, hPushed, hRegs ▸ writesToHost_call _⟩

end Runs

end FPsPIN.HpuDriver.CmdFrontend
