import FPsPIN.CmdDescr
import FPsPIN.CommonCells
import FPsPIN.Lib.Run

/-!
# The host_direct block

A command with immediate data becomes one address and one data beat on the
write channels of the host port, a read command one address on the read
channel. The command ids wait in two more queues for the responses, which the
host gives in order for each direction; a read response goes first.
-/

namespace FPsPIN.HostDirect

open CmdDescr CommonCells Config

structure Params where
  awFifoDepth : Nat
  arFifoDepth : Nat
  wFifoDepth : Nat
  writesFifoDepth : Nat
  readsFifoDepth : Nat

/-- Constant AXI_STRB. -/
def axiStrb : BitVec 32 := 64

structure WDescr where
  data : BitVec 512
  strb : BitVec 64
deriving DecidableEq

structure State (numCmds : Nat) where
  aw : List HostAddr
  ar : List HostAddr
  w : List WDescr
  writeId : List (PspinCmdId numCmds)
  readId : List (PspinCmdId numCmds)

structure Input (numCmds : Nat) where
  cmdReqValid : Bool
  cmdReq : PspinCmd numCmds
  awReady : Bool
  arReady : Bool
  wReady : Bool
  bValid : Bool
  rValid : Bool

def init (numCmds : Nat) : State numCmds := ⟨[], [], [], [], []⟩

/-- The data beat of a command. The shift distance is an unsigned word. -/
def wDescrOf (cmd : HostDirectCmd) : WDescr where
  data := cmd.immData
  strb := BitVec.allOnes 64 >>> (axiStrb - cmd.immDataSize.setWidth 32).toNat

section Combinational

variable {numCmds : Nat} (p : Params) (s : State numCmds) (i : Input numCmds)

def descr : HostDirectCmd := hostDirectCmd i.cmdReq.words

def full {Word : Type} (depth : Nat) (queue : List Word) : Bool := decide (depth ≤ queue.length)

def cmdReqReady : Bool :=
  (descr i).nicToHost && !full p.awFifoDepth s.aw && !full p.wFifoDepth s.w &&
    !full p.writesFifoDepth s.writeId ||
    !(descr i).nicToHost && !full p.arFifoDepth s.ar && !full p.readsFifoDepth s.readId

def writePush : Bool := i.cmdReqValid && cmdReqReady p s i && (descr i).nicToHost

def readPush : Bool := i.cmdReqValid && cmdReqReady p s i && !(descr i).nicToHost

def awValid : Bool := !s.aw.isEmpty

def arValid : Bool := !s.ar.isEmpty

def wValid : Bool := !s.w.isEmpty

def rReady : Bool := i.rValid

def bReady : Bool := !i.rValid && i.bValid

def cmdRespValid : Bool := i.rValid || i.bValid

def cmdRespId : Option (PspinCmdId numCmds) :=
  if i.rValid then s.readId.head? else if i.bValid then s.writeId.head? else none

def step : State numCmds where
  aw := fifoV3Step p.awFifoDepth s.aw (writePush p s i) (descr i).hostAddr (i.awReady && awValid s)
  ar := fifoV3Step p.arFifoDepth s.ar (readPush p s i) (descr i).hostAddr (i.arReady && arValid s)
  w := fifoV3Step p.wFifoDepth s.w (writePush p s i) (wDescrOf (descr i)) (i.wReady && wValid s)
  writeId := fifoV3Step p.writesFifoDepth s.writeId (writePush p s i) i.cmdReq.cmdId (bReady i && i.bValid)
  readId := fifoV3Step p.readsFifoDepth s.readId (readPush p s i) i.cmdReq.cmdId (rReady i && i.rValid)

end Combinational

end FPsPIN.HostDirect
