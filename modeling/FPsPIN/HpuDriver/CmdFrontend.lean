import Mathlib.Data.Nat.Log
import Mathlib.Logic.Function.Basic
import FPsPIN.CommonCells
import FPsPIN.Config

/-!
# The cmd_frontend of an HPU driver

The registers through which a core defines, issues, waits for and tests
commands. A set bit of freeCmdIds marks an id in use, as in the source. The
value that a read returns is registered: it is latched in the cycle in which
the request is first seen, while the id of a command may be chosen later.
-/

namespace FPsPIN.HpuDriver

open Config CommonCells

structure Params where
  numCmds : Nat
  numCmds_pos : 0 < numCmds
  /-- A command id fits a word. -/
  numCmds_le : numCmds ≤ 2 ^ 32
  /-- The driver has as many buffered commands as ids; the results hold for any number. -/
  numBufferedCmd : Nat
  clusterId : Nat
  coreId : Nat

abbrev Id (p : Params) := Fin p.numCmds

namespace CmdFrontend

inductive Phase where
  | disabled
  | ready
  | waitingBuffer
  | waitingID
  | waiting
deriving DecidableEq

structure State (p : Params) where
  stateQ : Phase
  freeCmdIds : Id p → Bool
  wtCmdIdxQ : Id p
  rvalidQ : Bool
  rdataQ : BitVec 32
  cmdQ : PspinCmd p.numCmds
  /-- The command FIFO, NUM_BUFFERED_CMD deep. -/
  cmdBuff : List (PspinCmd p.numCmds)

structure Input (p : Params) where
  req : Bool
  add : BitVec 32
  /-- Input wen_ni: high for a read. -/
  wen : Bool
  wdata : BitVec 32
  cmdRespValid : Bool
  cmdRespId : Id p
  disabled : Bool
  cmdReady : Bool

def zeroId (p : Params) : Id p := ⟨0, p.numCmds_pos⟩

def init (p : Params) : State p where
  stateQ := .ready
  freeCmdIds _ := false
  wtCmdIdxQ := zeroId p
  rvalidQ := false
  rdataQ := 0
  cmdQ := ⟨0, ⟨0, 0, zeroId p⟩, .hostMemCpy, fun _ => 0, false⟩
  cmdBuff := []

section Combinational

variable {p : Params} (s : State p) (i : Input p)

def addIdx : Nat := (i.add.extractLsb' 2 5).toNat

def cmdIssued : Bool := i.req && addIdx i == 0 && i.wen

def waitIssued : Bool := i.req && addIdx i == 1 && !i.wen

def testIssued : Bool := i.req && addIdx i == 2 && i.wen

def noPendingCmd : Bool := decide (∀ x, s.freeCmdIds x = false)

/-- The id named by the low $clog2(NUM_CMDS) bits of a word. If the number of ids is no power of two
these bits can also be an index outside of free_cmd_ids_q. Its bit has no defined value; here such
an index counts from zero again. -/
def idOf (p : Params) (word : BitVec 32) : Id p :=
  ⟨word.toNat % 2 ^ Nat.clog 2 p.numCmds % p.numCmds, Nat.mod_lt _ p.numCmds_pos⟩

def wtCmdIdxD : Id p := if waitIssued i || testIssued i then idOf p i.wdata else s.wtCmdIdxQ

def wtCmdFinished : Bool :=
  !s.freeCmdIds (wtCmdIdxD s i) || (i.cmdRespValid && i.cmdRespId == wtCmdIdxD s i)

def freeBit (x : Nat) : Bool := if h : x < p.numCmds then !s.freeCmdIds ⟨x, h⟩ else false

/-- The lowest free id, and the highest one when none is free. -/
def cmdIdx : Id p := ⟨lzcCnt p.numCmds (freeBit s), lzcCnt_lt p.numCmds_pos⟩

def noFreeCmdIds : Bool := lzcEmpty p.numCmds (freeBit s)

def cmdBuffFull : Bool := s.cmdBuff.length == p.numBufferedCmd

def cmdBuffEmpty : Bool := s.cmdBuff.isEmpty

def stateD : Phase :=
  match s.stateQ with
  | .ready =>
    if waitIssued i && !wtCmdFinished s i then .waiting
    else if cmdIssued i then
      if i.disabled then .disabled
      else if noFreeCmdIds s then .waitingID
      else if cmdBuffFull s then .waitingBuffer
      else .ready
    else .ready
  | .disabled =>
    if i.disabled then .disabled
    else if noFreeCmdIds s then .waitingID
    else if cmdBuffFull s then .waitingBuffer
    else .ready
  | .waitingID =>
    if i.cmdRespValid then (if cmdBuffFull s then .waitingBuffer else .ready) else .waitingID
  | .waitingBuffer => if cmdBuffFull s then .waitingBuffer else .ready
  | .waiting => if i.cmdRespValid && i.cmdRespId == s.wtCmdIdxQ then .ready else .waiting

def assignId : Bool :=
  match s.stateQ with
  | .ready => cmdIssued i && !i.disabled && !noFreeCmdIds s
  | .disabled => !i.disabled && !noFreeCmdIds s
  | _ => false

def freeCmdIdsD : Id p → Bool :=
  let assigned := if assignId s i then Function.update s.freeCmdIds (cmdIdx s) true else s.freeCmdIds
  if s.stateQ != .waitingID && i.cmdRespValid then Function.update assigned i.cmdRespId false else assigned

def localCmdIdD : Id p :=
  match s.stateQ with
  | .waitingID => if i.cmdRespValid then i.cmdRespId else s.cmdQ.cmdId.localCmdId
  | _ => if assignId s i then cmdIdx s else s.cmdQ.cmdId.localCmdId

def defines : Bool := i.req && s.stateQ == .ready && addIdx i == 3 && !i.wen

def wordWrite : Option (Fin 19) :=
  if h : (i.req && s.stateQ == .ready && decide (4 ≤ addIdx i) && decide (addIdx i ≤ 10) && !i.wen) = true then
    some ⟨addIdx i - 4, by
      simp only [Bool.and_eq_true, decide_eq_true_eq] at h
      omega⟩
  else none

def cmdKind : BitVec 2 := i.wdata.extractLsb' 1 2

/-- The command register after the request; the encoding 3 of the type leaves type and interface. -/
def cmdD : PspinCmd p.numCmds where
  intfId :=
    if defines s i then
      match (cmdKind i).toNat with
      | 0 => cmdEdmaId
      | 1 => cmdNicOutboundId
      | 2 => cmdHostdirectId
      | _ => s.cmdQ.intfId
    else s.cmdQ.intfId
  cmdId := ⟨p.clusterId, p.coreId, localCmdIdD s i⟩
  cmdType :=
    if defines s i then
      match (cmdKind i).toNat with
      | 0 => .hostMemCpy
      | 1 => .nicSend
      | 2 => .hostDirect
      | _ => s.cmdQ.cmdType
    else s.cmdQ.cmdType
  words :=
    match wordWrite s i with
    | some w => Function.update s.cmdQ.words w i.wdata
    | none => s.cmdQ.words
  generateEvent := if defines s i then i.wdata.getLsbD 0 else s.cmdQ.generateEvent

def cmdBuffPush : Bool := !cmdBuffFull s && cmdIssued i && stateD s i == .ready

def cmdValid : Bool := !cmdBuffEmpty s

def gnt : Bool := i.req && stateD s i == .ready

def rdataD : BitVec 32 :=
  match s.stateQ with
  | .ready =>
    if testIssued i then (if wtCmdFinished s i then 1 else 0)
    else if cmdIssued i then BitVec.ofNat 32 (cmdIdx s)
    else s.rdataQ
  | .waiting => if i.cmdRespValid then BitVec.ofNat 32 i.cmdRespId else s.rdataQ
  | _ => s.rdataQ

end Combinational

def step {p : Params} (s : State p) (i : Input p) : State p where
  stateQ := stateD s i
  freeCmdIds := freeCmdIdsD s i
  wtCmdIdxQ := wtCmdIdxD s i
  rvalidQ := gnt s i
  rdataQ := rdataD s i
  cmdQ := cmdD s i
  cmdBuff := fifoV3Step p.numBufferedCmd s.cmdBuff (cmdBuffPush s i) (cmdD s i) (i.cmdReady && cmdValid s)

end CmdFrontend

end FPsPIN.HpuDriver
