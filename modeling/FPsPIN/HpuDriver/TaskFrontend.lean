import FPsPIN.CommonCells
import FPsPIN.Config

/-!
# The task_frontend of an HPU driver

Which task the core runs and which feedback waits to be sent. The registers
that the handler reads about its task and the memory protection outputs do
not act on this state and are left out.
-/

namespace FPsPIN.HpuDriver

open Config CommonCells

namespace TaskFrontend

inductive Phase where
  | init
  | idle
  | running
  | sendingFeedback
deriving DecidableEq

structure State where
  stateQ : Phase
  currentTaskQ : HpuHandlerTask
  /-- The one-entry feedback FIFO. -/
  feedbackBuff : List TaskFeedbackDescr

structure Input where
  hpuTaskValid : Bool
  hpuTask : HpuHandlerTask
  hpuFeedbackReady : Bool
  req : Bool
  add : BitVec 32
  canSendFeedback : Bool

section Combinational

variable (s : State) (i : Input)

def feedbackBuffFull : Bool := s.feedbackBuff.length == 1

def feedbackBuffEmpty : Bool := s.feedbackBuff.isEmpty

/-- Output disable_commands_o. -/
def disableCommands : Bool := !feedbackBuffEmpty s

def hpuTaskReady : Bool := s.stateQ == .idle

def gnt : Bool := s.stateQ == .running && i.req

/-- A read of the feedback register ends the handler. -/
def triggerFeedback : Bool := gnt s i && i.add.extractLsb' 0 8 == 0x50#8

def hpuFeedbackValid : Bool := i.canSendFeedback && !feedbackBuffEmpty s

def hpuFeedback : TaskFeedbackDescr where
  feedbackDescr :=
    { pktAddr := s.currentTaskQ.handlerTask.pktAddr
      pktSize := s.currentTaskQ.handlerTask.pktSize
      msgid := s.currentTaskQ.handlerTask.msgid
      triggerFeedback := s.currentTaskQ.handlerTask.triggerFeedback }
  pktPtr := s.currentTaskQ.pktPtr

def feedbackBuffPush : Bool :=
  !feedbackBuffFull s && (triggerFeedback s i || s.stateQ == .sendingFeedback)

def feedbackBuffPop : Bool := i.hpuFeedbackReady && hpuFeedbackValid s i

def stateD : Phase :=
  match s.stateQ with
  | .init => if i.req then .idle else .init
  | .idle =>
    if i.hpuTaskValid then
      (if i.hpuTask.handlerTask.handlerFun == 0 then .sendingFeedback else .running)
    else .idle
  | .running =>
    if triggerFeedback s i then (if feedbackBuffFull s then .sendingFeedback else .idle) else .running
  | .sendingFeedback => if feedbackBuffFull s then .sendingFeedback else .idle

end Combinational

def step (s : State) (i : Input) : State where
  stateQ := stateD s i
  currentTaskQ := if s.stateQ == .idle && i.hpuTaskValid then i.hpuTask else s.currentTaskQ
  feedbackBuff := fifoV3Step 1 s.feedbackBuff (feedbackBuffPush s i) (hpuFeedback s) (feedbackBuffPop s i)

end TaskFrontend

end FPsPIN.HpuDriver
