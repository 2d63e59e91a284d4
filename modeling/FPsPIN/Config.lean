import Mathlib.Data.Fintype.Pi

/-!
# Types and constants of pspin_cfg_pkg

Descriptors that travel between the packet scheduler's blocks. Word widths
are the package's; fields that no modelled block reads are left out.
-/

namespace FPsPIN.Config

def numClusters : Nat := 2

def numCores : Nat := 8

theorem numCores_pos : 0 < numCores := Nat.succ_pos 7

def numMpqCells : Nat := 128

def numMpqStaticCells : Nat := 1

abbrev MemAddr := BitVec 32

abbrev MemSize := BitVec 32

abbrev HostAddr := BitVec 64

abbrev MsgId := BitVec 10

structure FeedbackDescr where
  pktAddr : MemAddr
  pktSize : MemSize
  msgid : MsgId
  triggerFeedback : Bool
deriving DecidableEq

structure MpqMeta where
  handlerMemAddr : MemAddr
  handlerMemSize : MemSize
  hostMemAddr : HostAddr
  hostMemSize : MemSize
  hhAddr : MemAddr
  hhSize : MemSize
  phAddr : MemAddr
  phSize : MemSize
  thAddr : MemAddr
  thSize : MemSize
  scratchpadAddr : Fin numClusters → MemAddr
  scratchpadSize : Fin numClusters → MemSize
deriving DecidableEq

structure HerDescr where
  msgid : MsgId
  eom : Bool
  herAddr : MemAddr
  herSize : MemSize
  xferSize : MemSize
  mpqMeta : MpqMeta
deriving DecidableEq

structure HandlerTask where
  msgid : MsgId
  handlerFun : MemAddr
  handlerFunSize : MemSize
  handlerMemAddr : MemAddr
  handlerMemSize : MemSize
  hostMemAddr : HostAddr
  hostMemSize : MemSize
  pktAddr : MemAddr
  pktSize : MemSize
  triggerFeedback : Bool
  scratchpadAddr : Fin numClusters → MemAddr
  scratchpadSize : Fin numClusters → MemSize
deriving DecidableEq

abbrev PktPtr := BitVec 32

structure HpuHandlerTask where
  handlerTask : HandlerTask
  pktPtr : PktPtr
deriving DecidableEq

structure TaskFeedbackDescr where
  feedbackDescr : FeedbackDescr
  pktPtr : PktPtr
deriving DecidableEq

inductive PspinCmdType where
  | hostMemCpy
  | nicSend
  | hostDirect
deriving DecidableEq

/-- Interfaces of the command unit, with the package's numbers. -/
def cmdHostdirectId : Nat := 0

def cmdNicOutboundId : Nat := 1

def cmdEdmaId : Nat := 2

/-- The index of a command identifier is local to its core. The source gives it $clog2(NUM_HPU_CMDS) bits; NUM_CMDS
is taken to be NUM_HPU_CMDS, so that the index is one of a core's command slots. -/
structure PspinCmdId (numCmds : Nat) where
  clusterId : Nat
  coreId : Nat
  localCmdId : Fin numCmds
deriving DecidableEq

structure PspinCmd (numCmds : Nat) where
  intfId : Nat
  cmdId : PspinCmdId numCmds
  cmdType : PspinCmdType
  words : Fin 19 → BitVec 32
  generateEvent : Bool
deriving DecidableEq

end FPsPIN.Config
