import FPsPIN.Lib.Run
import FPsPIN.HpuDriver.TaskFrontend
import FPsPIN.HpuDriver.CmdFrontend

/-!
# The hpu_driver: one HPU's task and command frontends

The core's bus reaches one of the two frontends by its address. A buffered
feedback disables commands, and pending commands hold the feedback back.
-/

namespace FPsPIN.HpuDriver

open Config Run

structure State (p : Params) where
  task : TaskFrontend.State
  cmd : CmdFrontend.State p

structure Input (p : Params) where
  hpuTaskValid : Bool
  hpuTask : HpuHandlerTask
  hpuFeedbackReady : Bool
  req : Bool
  add : BitVec 32
  wen : Bool
  wdata : BitVec 32
  noDmaReqPending : Bool
  cmdReady : Bool
  cmdRespValid : Bool
  cmdResp : PspinCmdId p.numCmds

def zeroTask : HpuHandlerTask :=
  ⟨⟨0, 0, 0, 0, 0, 0, 0, 0, 0, false, fun _ => 0, fun _ => 0⟩, 0⟩

def init (p : Params) : State p := ⟨⟨.init, zeroTask, []⟩, CmdFrontend.init p⟩

section Combinational

variable {p : Params} (s : State p) (i : Input p)

/-- Address bits 8:7 select the frontend. -/
def addType : Nat := (i.add.extractLsb' 7 2).toNat

/-- Responses for other cores are ignored. -/
def cmdRespValid : Bool :=
  i.cmdRespValid && i.cmdResp.clusterId == p.clusterId && i.cmdResp.coreId == p.coreId

def canSendFeedback : Bool := i.noDmaReqPending && CmdFrontend.noPendingCmd s.cmd

def taskInput : TaskFrontend.Input where
  hpuTaskValid := i.hpuTaskValid
  hpuTask := i.hpuTask
  hpuFeedbackReady := i.hpuFeedbackReady
  req := i.req && addType i == 0
  add := i.add
  canSendFeedback := canSendFeedback s i

def cmdInput : CmdFrontend.Input p where
  req := i.req && addType i == 1
  add := i.add
  wen := i.wen
  wdata := i.wdata
  cmdRespValid := cmdRespValid i
  cmdRespId := i.cmdResp.localCmdId
  disabled := TaskFrontend.disableCommands s.task
  cmdReady := i.cmdReady

def gnt : Bool :=
  match addType i with
  | 0 => TaskFrontend.gnt s.task (taskInput s i)
  | 1 => CmdFrontend.gnt s.cmd (cmdInput s i)
  | _ => false

end Combinational

def step {p : Params} (s : State p) (i : Input p) : State p :=
  ⟨TaskFrontend.step s.task (taskInput s i), CmdFrontend.step s.cmd (cmdInput s i)⟩

end FPsPIN.HpuDriver
