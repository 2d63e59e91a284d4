import FPsPIN.CmdDescr
import FPsPIN.CommonCells
import FPsPIN.Lib.Counter
import FPsPIN.Lib.Matching

/-!
# The soc_dma_wrap block

A command becomes a transfer of the DMA engine in one of two directions. The
engine only tells that a transfer of a direction has completed, so the ids of
the commands wait in a queue for each direction, and a counter has the number
of responses to give. The request to the engine does not wait for room in the
queue, only the acceptance of the command does. The engine is an input.
-/

namespace FPsPIN.SocDma

open CmdDescr CommonCells Config Counter

structure Params where
  axiAxReqDepth : Nat
  tfReqFifoDepth : Nat

namespace Params

variable (p : Params)

def respFifoDepth : Nat := p.tfReqFifoDepth + p.axiAxReqDepth

/-- Width of the counters to_pop_rx_q and to_pop_tx_q. -/
def toPopWidth : Nat := Nat.clog 2 p.respFifoDepth + 1

theorem respFifoDepth_lt : p.respFifoDepth < 2 ^ p.toPopWidth := lt_two_pow_clog_succ _

end Params

/-- The two ports of the engine: to the host, and from the host. -/
inductive Direction where
  | rx
  | tx
deriving DecidableEq

/-- Bit 64 of an address tells the host from the NIC. -/
structure TransfDescrSoc where
  numBytes : BitVec 32
  dstAddr : BitVec 65
  srcAddr : BitVec 65
  deburst : Bool
  decouple : Bool
  serialize : Bool
deriving DecidableEq

structure State (p : Params) (numCmds : Nat) where
  respFifo : Direction → List (PspinCmdId numCmds)
  toPopQ : Direction → BitVec p.toPopWidth

structure Input (numCmds : Nat) where
  cmdReqValid : Bool
  cmdReq : PspinCmd numCmds
  /-- Ports rx_req_ready_o and tx_req_ready_o of the engine. -/
  reqReady : Direction → Bool
  /-- Ports rx_rsp_valid_o and tx_rsp_valid_o of the engine. -/
  respValid : Direction → Bool
  /-- The choice of the arbiter for the responses. -/
  respIdx : Direction

def init (p : Params) (numCmds : Nat) : State p numCmds where
  respFifo _ := []
  toPopQ _ := 0

def directionOf {numCmds : Nat} (cmd : PspinCmd numCmds) : Direction :=
  if (hostDmaCmd cmd.words).nicToHost then .rx else .tx

def hostSide (cmd : HostDmaCmd) : BitVec 65 := (1#1 ++ cmd.hostAddr : BitVec 65)

def nicSide (cmd : HostDmaCmd) : BitVec 65 := cmd.nicAddr.setWidth 65

def xferDescr {numCmds : Nat} (cmd : PspinCmd numCmds) : TransfDescrSoc :=
  let descr := hostDmaCmd cmd.words
  { numBytes := descr.length
    dstAddr := if descr.nicToHost then hostSide descr else nicSide descr
    srcAddr := if descr.nicToHost then nicSide descr else hostSide descr
    deburst := false
    decouple := true
    serialize := false }

section Combinational

variable {p : Params} {numCmds : Nat} (s : State p numCmds) (i : Input numCmds)

def fifoFull (d : Direction) : Bool := decide (p.respFifoDepth ≤ (s.respFifo d).length)

def cmdReqReady : Bool :=
  i.cmdReqValid && (!fifoFull s (directionOf i.cmdReq) && i.reqReady (directionOf i.cmdReq))

def reqValid (d : Direction) : Bool := i.cmdReqValid && decide (directionOf i.cmdReq = d)

def fifoPush (d : Direction) : Bool := cmdReqReady s i && reqValid i d

def fifoRespAvail (d : Direction) : Bool := decide (0 < (s.toPopQ d).toNat)

def fifoPop (d : Direction) : Bool := fifoRespAvail s d && decide (d = i.respIdx)

def cmdRespValid : Bool := fifoRespAvail s .rx || fifoRespAvail s .tx

/-- The id of the response, if the queue has one. -/
def cmdRespId : Option (PspinCmdId numCmds) := (s.respFifo i.respIdx).head?

def toPopD (d : Direction) : BitVec p.toPopWidth := upDown (s.toPopQ d) (i.respValid d) (fifoPop s i d)

def step : State p numCmds where
  respFifo d := fifoV3Step p.respFifoDepth (s.respFifo d) (fifoPush s i d) i.cmdReq.cmdId (fifoPop s i d)
  toPopQ := toPopD s i

end Combinational

end FPsPIN.SocDma
