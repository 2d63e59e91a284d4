import FPsPIN.FifoEngine.Model
import FPsPIN.MpqEngine.Fsm

/-!
# The mpq_engine block

One cycle of mpq_engine.sv with its fifo_engine and its metadata memory. The
number of MPQs is a power of two, so that an index is the low end of a
message id. The round-robin arbiter is an input: any choice among the valid
MPQs is allowed. The port eos_i only feeds an assertion and is left out.
-/

namespace FPsPIN.MpqEngine

open Config

structure Params where
  numHerSlots : Nat
  mpqBits : Nat
  /-- The slots fit the length field of mpq_t, as in the instance. -/
  slots_le : numHerSlots ≤ numMpqCells
  /-- An MPQ index fits a message id. -/
  bits_le : mpqBits ≤ 10

def Params.numMpq (p : Params) : Nat := 2 ^ p.mpqBits

theorem Params.numMpq_pos (p : Params) : 0 < p.numMpq := Nat.two_pow_pos p.mpqBits

/-- Parameters of the packet FIFO. -/
abbrev Params.fifo (p : Params) : FifoEngine.Params := ⟨p.numHerSlots, p.numMpq, numMpqStaticCells⟩

/-- The instance in pspin.sv. -/
def deployed : Params := ⟨numMpqCells, 4, by decide, by decide⟩

abbrev Index (p : Params) := Fin p.numMpq

/-- The low bits of a message id select its MPQ. -/
def mpqIdx (p : Params) (msgid : MsgId) : Index p := ⟨msgid.toNat % p.numMpq, Nat.mod_lt _ p.numMpq_pos⟩

structure MpqPkt where
  pktAddr : MemAddr
  pktSize : MemSize
deriving DecidableEq

inductive EngState where
  | idle
  | ready
  | stalled
deriving DecidableEq

structure State (p : Params) where
  fifo : FifoEngine.State MpqPkt p.fifo
  /-- Words, last read address and read register of i_mpq_meta_mem. -/
  metaMem : Index p → MpqMeta
  metaRaddr : Index p
  metaRdata : MpqMeta
  stateQ : EngState
  mpqQ : Index p → Mpq
  taskQ : HandlerTask
  mpqOutStateQ : MpqState
  selectedMpqQ : Index p
  newTaskTriggersFeedbackQ : Bool

structure Input (p : Params) where
  herValid : Bool
  her : HerDescr
  feedbackValid : Bool
  feedback : FeedbackDescr
  taskReady : Bool
  nicFeedbackReady : Bool
  /-- Output idx_o of the arbiter. -/
  mpqArbIdx : Index p

/-- Memory contents at power-up, which reset leaves as they are. -/
structure Boot where
  pkt : Nat → MpqPkt
  pktRdata : MpqPkt
  mpqMeta : Nat → MpqMeta
  metaRdata : MpqMeta

def zeroTask : HandlerTask := ⟨0, 0, 0, 0, 0, 0, 0, 0, 0, false, fun _ => 0, fun _ => 0⟩

def init (p : Params) (b : Boot) : State p where
  fifo := FifoEngine.init p.fifo b.pkt b.pktRdata
  metaMem j := b.mpqMeta j
  metaRaddr := ⟨0, p.numMpq_pos⟩
  metaRdata := b.metaRdata
  stateQ := .idle
  mpqQ _ := ⟨.free, 0, 0, false, false⟩
  taskQ := zeroTask
  mpqOutStateQ := .free
  selectedMpqQ := ⟨0, p.numMpq_pos⟩
  newTaskTriggersFeedbackQ := false

def hasHh (her : HerDescr) : Bool := her.mpqMeta.hhAddr != 0

def hasTh (her : HerDescr) : Bool := her.mpqMeta.thAddr != 0

def newPkt (her : HerDescr) : MpqPkt := ⟨her.herAddr, her.xferSize⟩

/-- The task built from a granted MPQ: its state selects the handler. -/
def newTask {p : Params} (outState : MpqState) (mpqMeta : MpqMeta) (head : MpqPkt) (triggers : Bool)
    (selected : Index p) : HandlerTask where
  msgid := BitVec.ofNat 10 selected
  handlerFun := match outState with
    | .header => mpqMeta.hhAddr
    | .payload => mpqMeta.phAddr
    | .completion => mpqMeta.thAddr
    | _ => 0
  handlerFunSize := match outState with
    | .header => mpqMeta.hhSize
    | .payload => mpqMeta.phSize
    | .completion => mpqMeta.thSize
    | _ => 0
  handlerMemAddr := mpqMeta.handlerMemAddr
  handlerMemSize := mpqMeta.handlerMemSize
  hostMemAddr := mpqMeta.hostMemAddr
  hostMemSize := mpqMeta.hostMemSize
  pktAddr := match outState with
    | .header | .payload | .completion => head.pktAddr
    | _ => 0
  pktSize := match outState with
    | .header | .payload | .completion => head.pktSize
    | _ => 0
  triggerFeedback := match outState with
    | .header | .payload | .completion => triggers
    | _ => false
  scratchpadAddr := mpqMeta.scratchpadAddr
  scratchpadSize := mpqMeta.scratchpadSize

section Combinational

variable {p : Params} (s : State p) (i : Input p)

def newherMpqIdx : Index p := mpqIdx p i.her.msgid

def feedbackMpqIdx : Index p := mpqIdx p i.feedback.msgid

def tasksentMpqIdx : Index p := i.mpqArbIdx

def herReady : Bool := !FifoEngine.fifoFull s.fifo (newherMpqIdx i)

/-- A HER is taken in this cycle. -/
def herNew : Bool := i.herValid && herReady s i

/-- A feedback is taken in this cycle; feedback_ready_o is nic_feedback_ready_i. -/
def feedbackNew : Bool := i.feedbackValid && i.nicFeedbackReady

/-- Output req_o of the arbiter. -/
def arbValid : Bool := decide (∃ j, (s.mpqQ j).valid = true)

def arbReady : Bool :=
  match s.stateQ with
  | .idle => arbValid s
  | .ready => i.taskReady && arbValid s
  | .stalled => i.taskReady && arbValid s

def stateD : EngState :=
  match s.stateQ with
  | .idle => if arbValid s then .ready else .idle
  | .ready => if i.taskReady then (if arbValid s then .ready else .idle) else .stalled
  | .stalled => if i.taskReady then (if arbValid s then .ready else .idle) else .stalled

/-- The arbiter's choice is taken in this cycle. -/
def grant : Bool := arbReady s i && arbValid s

/-- Events that the instances of mpq_fsm see for MPQ j. -/
def eventsOn (j : Index p) : FsmEvents where
  herNew := herNew s i && newherMpqIdx i == j
  taskSent := grant s i && tasksentMpqIdx i == j
  feedback := feedbackNew i && feedbackMpqIdx i == j
  herNewHasHh := hasHh i.her
  herNewHasTh := hasTh i.her
  herNewIsEom := i.her.eom

/-- The instance of mpq_fsm for MPQ j writes its output over earlier writes. -/
def fsmWrite (mpq : Index p → Mpq) (j : Index p) : Index p → Mpq :=
  if fsmUpdate (eventsOn s i j) then Function.update mpq j (mpqFsm (eventsOn s i j) (s.mpqQ j)) else mpq

def mpqD : Index p → Mpq :=
  fsmWrite s i (fsmWrite s i (fsmWrite s i s.mpqQ (newherMpqIdx i)) (tasksentMpqIdx i)) (feedbackMpqIdx i)

def fifoPop : Bool :=
  let q := s.mpqQ (tasksentMpqIdx i)
  let d := mpqD s i (tasksentMpqIdx i)
  grant s i &&
    ((q.state == .payload && d.state == .payload) ||
      (q.state == .payload && d.state == .payloadDraining && !d.hasCompletion) ||
      q.state == .completion)

def fifoInput : FifoEngine.Input MpqPkt p.fifo where
  newEl := newPkt i.her
  push := herNew s i
  fifoPushId := newherMpqIdx i
  pop := fifoPop s i
  fifoPopId := tasksentMpqIdx i

def mpqmetaWrite : Bool := herNew s i && (s.mpqQ (newherMpqIdx i)).state == .free

/-- Output task_o while the engine is in state Ready. -/
def freshTask : HandlerTask :=
  newTask s.mpqOutStateQ s.metaRdata s.fifo.dataO s.newTaskTriggersFeedbackQ s.selectedMpqQ

def taskValid : Bool := s.stateQ == .ready || s.stateQ == .stalled

def taskO : HandlerTask := if s.stateQ == .ready then freshTask s else s.taskQ

/-- Outputs nic_feedback_valid_o and nic_feedback_o. -/
def nicFeedback : Option FeedbackDescr :=
  if i.feedbackValid && i.feedback.triggerFeedback then some i.feedback else none

end Combinational

def step {p : Params} (s : State p) (i : Input p) : State p where
  fifo := FifoEngine.step s.fifo (fifoInput s i)
  metaMem :=
    if mpqmetaWrite s i then Function.update s.metaMem (newherMpqIdx i) i.her.mpqMeta else s.metaMem
  metaRaddr := if grant s i then tasksentMpqIdx i else s.metaRaddr
  metaRdata := s.metaMem (if grant s i then tasksentMpqIdx i else s.metaRaddr)
  stateQ := stateD s i
  mpqQ := mpqD s i
  taskQ := taskO s
  mpqOutStateQ := if grant s i then (s.mpqQ (tasksentMpqIdx i)).state else s.mpqOutStateQ
  selectedMpqQ := if grant s i then tasksentMpqIdx i else s.selectedMpqQ
  newTaskTriggersFeedbackQ := if grant s i then fifoPop s i else s.newTaskTriggersFeedbackQ

end FPsPIN.MpqEngine
