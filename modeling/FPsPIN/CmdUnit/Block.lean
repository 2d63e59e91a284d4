import FPsPIN.Config
import FPsPIN.CommonCells
import FPsPIN.Lib.Matching
import Mathlib.Algebra.Group.Nat.Defs
import Mathlib.Data.List.FinRange
import Mathlib.Data.Nat.Log

/-!
# The cmd_unit block

Commands of the clusters go through a register and a crossbar to the interface
that they name; responses of the interfaces are buffered and broadcast. An
interface cannot be held off when it responds, so the block counts the commands
in flight and offers none that could find no room for its response. The choices
of the arbiters are inputs.
-/

namespace FPsPIN.CmdUnit

open CommonCells Config

structure Params where
  numClusters : Nat
  numCmdInterfaces : Nat
  intfRespBuffSize : Nat
  intfRespBuffSize_pos : 0 < intfRespBuffSize

abbrev ClusterId (p : Params) := Fin p.numClusters

abbrev IntfId (p : Params) := Fin p.numCmdInterfaces

structure State (p : Params) (numCmds : Nat) where
  clusterSpill : ClusterId p → SpillRegister (PspinCmd numCmds)
  reqFifo : IntfId p → List Bool
  respFifo : IntfId p → List (PspinCmdId numCmds)
  respSpill : SpillRegister (PspinCmdId numCmds)

structure Input (p : Params) (numCmds : Nat) where
  cmdValid : ClusterId p → Bool
  cmd : ClusterId p → PspinCmd numCmds
  intfReady : IntfId p → Bool
  intfCmdRespValid : IntfId p → Bool
  intfCmdResp : IntfId p → PspinCmdId numCmds
  /-- The choices of the arbiters for the interfaces. -/
  cmdIdx : IntfId p → ClusterId p
  /-- The choice of the arbiter for the responses. -/
  respIdx : IntfId p
  /-- What the memory of an empty response buffer holds. -/
  staleResp : PspinCmdId numCmds

variable {p : Params} {numCmds : Nat}

def init (p : Params) (numCmds : Nat) : State p numCmds where
  clusterSpill _ := SpillRegister.empty
  reqFifo _ := []
  respFifo _ := []
  respSpill := SpillRegister.empty

section Combinational

variable (s : State p numCmds) (i : Input p numCmds)

def cmdReady (c : ClusterId p) : Bool := (s.clusterSpill c).readyO

/-- Signals cluster_cmd_valid and cluster_cmd. -/
def clusterCmd (c : ClusterId p) : Option (PspinCmd numCmds) := (s.clusterSpill c).dataO

def intfMuxValid (j : IntfId p) (c : ClusterId p) : Bool := (clusterCmd s c).any fun cmd => cmd.intfId == j.val

def cmdArbValid (j : IntfId p) : Bool := (List.finRange p.numClusters).any (intfMuxValid s j)

/-- Output usage_o of the queue of requests in flight. -/
def reqUsage (j : IntfId p) : Nat := (s.reqFifo j).length % 2 ^ Nat.clog 2 p.intfRespBuffSize

def reqHasSpace (j : IntfId p) : Bool := decide (reqUsage s j < p.intfRespBuffSize - 1)

def intfValid (j : IntfId p) : Bool := cmdArbValid s j && reqHasSpace s j

def cmdArbReady (j : IntfId p) : Bool := i.intfReady j && reqHasSpace s j

/-- Output intf_cmd_o, the data that the arbiter selects. -/
def intfCmd (j : IntfId p) : Option (PspinCmd numCmds) := clusterCmd s (i.cmdIdx j)

def intfMuxReady (j : IntfId p) (c : ClusterId p) : Bool := cmdArbReady s i j && decide (c = i.cmdIdx j)

/-- The ready that the demultiplexer selects by the interface of the command. -/
def clusterCmdReady (c : ClusterId p) : Bool :=
  (clusterCmd s c).any fun cmd =>
    if h : cmd.intfId < p.numCmdInterfaces then intfMuxReady s i ⟨cmd.intfId, h⟩ c else false

def reqPush (j : IntfId p) : Bool := cmdArbValid s j && cmdArbReady s i j

def respBufferValid (j : IntfId p) : Bool := !(s.respFifo j).isEmpty

def respBufferPop (j : IntfId p) : Bool := decide (j = i.respIdx) && respBufferValid s j

def respArbValid : Bool := (List.finRange p.numCmdInterfaces).any (respBufferValid s)

def respArbData : PspinCmdId numCmds := (s.respFifo i.respIdx).head?.getD i.staleResp

/-- Outputs cmd_resp_valid_o and cmd_resp_o. -/
def cmdResp : Option (PspinCmdId numCmds) := s.respSpill.dataO

def step : State p numCmds where
  clusterSpill c := (s.clusterSpill c).step (i.cmdValid c) (i.cmd c) (clusterCmdReady s i c)
  reqFifo j := fifoV3Step p.intfRespBuffSize (s.reqFifo j) (reqPush s i j) true (respBufferPop s i j)
  respFifo j :=
    fifoV3Step p.intfRespBuffSize (s.respFifo j) (i.intfCmdRespValid j) (i.intfCmdResp j) (respBufferPop s i j)
  respSpill := s.respSpill.step (respArbValid s) (respArbData s i) true

end Combinational

end FPsPIN.CmdUnit
