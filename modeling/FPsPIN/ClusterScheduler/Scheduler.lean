import FPsPIN.Lib.Run
import FPsPIN.Config
import FPsPIN.ClusterScheduler.RbShim

/-!
# The cluster_scheduler block

Tasks are accepted when the L1 packet buffer reports enough free space, a DMA
transfer copies the packet, and the task waits in a queue for the transfer and
for an idle HPU. Feedbacks free the packet. The arbiter among the HPU
feedbacks is an input: any choice among the valid ones.
-/

namespace FPsPIN.ClusterScheduler

open CommonCells Config

/-- Constants PktBuffMemSlotSize and NumRB. -/
def pktBuffMemSlotSize : Nat := 64

def numRb : Nat := 4

structure Params where
  numHersPerCluster : Nat
  /-- L1_PKT_BUFF_SIZE is NumRB ring buffers of this many slots, as a power of two. -/
  slotBits : Nat
  l1ClusterBase : BitVec 32
  l1ClusterMemSize : BitVec 32
  l1PktBuffOffset : BitVec 32
  clusterId : BitVec 6
  slotBits_pos : 0 < slotBits
  /-- L1_PKT_BUFF_SIZE is an int. -/
  l1PktBuffSize_lt : numRb * (2 ^ slotBits * pktBuffMemSlotSize) < 2 ^ 31

namespace Params

variable (p : Params)

def shim : ClusterRbShim.Params where
  numRb := numRb
  rb := ⟨p.slotBits, pktBuffMemSlotSize, p.slotBits_pos, by decide⟩
  numRb_pos := by decide

def l1PktBuffSize : Nat := p.shim.buffMemLength

def l1PktBaseAddr : BitVec 32 := (p.l1ClusterBase + p.clusterId.setWidth 32 * p.l1ClusterMemSize) + p.l1PktBuffOffset

/-- Width of to_pop_q. -/
def popWidth : Nat := Nat.clog 2 p.numHersPerCluster + 1

end Params

inductive Phase where
  | ready
  | waitDma
deriving DecidableEq

/-- Fields of transf_descr_32_t that are not constant. -/
structure TransfDescr where
  numBytes : MemSize
  srcAddr : MemAddr
  dstAddr : MemAddr
deriving DecidableEq

structure State (p : Params) where
  stateQ : Phase
  dmaXferQ : TransfDescr
  toPopQ : BitVec p.popWidth
  /-- Contents of i_dma_request_fifo. -/
  dmaReq : List HpuHandlerTask
  herAlloc : ClusterRbShim.State p.shim

structure Input (p : Params) where
  taskValid : Bool
  taskDescr : HandlerTask
  feedbackReady : Bool
  dmaXferReady : Bool
  dmaResp : Bool
  hpuTaskReady : Fin numCores → Bool
  hpuFeedbackValid : Fin numCores → Bool
  hpuFeedback : Fin numCores → TaskFeedbackDescr
  /-- Output idx_o of the feedback arbiter. -/
  hpuFeedbackIdx : Fin numCores

variable {p : Params}

def init (p : Params) : State p := ⟨.ready, ⟨0, 0, 0⟩, 0, [], ClusterRbShim.init p.shim⟩

section Combinational

variable (s : State p) (i : Input p)

def hpuFeedbackArb : TaskFeedbackDescr := i.hpuFeedback i.hpuFeedbackIdx

/-- Output req_o of the arbiter. -/
def feedbackValid : Bool := decide (∃ c, i.hpuFeedbackValid c = true)

def hpuFeedbackReady (c : Fin numCores) : Bool :=
  i.feedbackReady && i.hpuFeedbackValid c && decide (c = i.hpuFeedbackIdx)

def feedback : FeedbackDescr := (hpuFeedbackArb i).feedbackDescr

def feedbackNew : Bool := feedbackValid i && i.feedbackReady

def dmaReqFull : Bool := decide (p.numHersPerCluster ≤ s.dmaReq.length)

def pktBuffFreeSpace : Nat := ClusterRbShim.freeSpace s.herAlloc

def taskReady : Bool :=
  s.stateQ == .ready && !dmaReqFull s && decide (i.taskDescr.pktSize.toNat ≤ pktBuffFreeSpace s)

def taskNew : Bool := i.taskValid && taskReady s i

def feedbackPktIdx : BitVec p.shim.idxWidth := ((hpuFeedbackArb i).pktPtr - p.l1PktBaseAddr).setWidth _

def herAllocInput : ClusterRbShim.Input p.shim where
  allocValid := taskNew s i
  allocSize := i.taskDescr.pktSize.setWidth _
  freeValid := feedbackNew i
  freeIndex := feedbackPktIdx i
  freeSize := (hpuFeedbackArb i).feedbackDescr.pktSize.setWidth _

/-- The ready of the buffer, which nothing looks at. -/
def pktAllocReady : Bool := ClusterRbShim.allocReady s.herAlloc (herAllocInput s i)

def freePktIdx : BitVec p.shim.idxWidth := ClusterRbShim.allocIndex s.herAlloc (herAllocInput s i)

def l1PktPtr : PktPtr := p.l1PktBaseAddr + (freePktIdx s i).setWidth 32

def newTask : HpuHandlerTask := ⟨i.taskDescr, l1PktPtr s i⟩

/-- No transfer is issued for a task without packet data. -/
def canIssueDma : Bool := taskNew s i && i.taskDescr.pktSize != 0

def dmaXfer : TransfDescr := ⟨i.taskDescr.pktSize, i.taskDescr.pktAddr, l1PktPtr s i⟩

def dmaXferOut : TransfDescr := if s.stateQ == .ready then dmaXfer s i else s.dmaXferQ

def dmaXferValid : Bool := s.stateQ == .ready && canIssueDma s i || s.stateQ == .waitDma

def stateD : Phase :=
  match s.stateQ with
  | .ready => if canIssueDma s i then (if i.dmaXferReady then .ready else .waitDma) else .ready
  | .waitDma => if i.dmaXferReady then .ready else .waitDma

def idleHpu (c : Nat) : Bool := if h : c < numCores then i.hpuTaskReady ⟨c, h⟩ else false

def freeHpuIdx : Nat := lzcCnt numCores (idleHpu i)

def noFreeHpu : Bool := lzcEmpty numCores (idleHpu i)

def dmaReqPop : Bool :=
  match s.dmaReq with
  | [] => false
  | readyTask :: _ => !noFreeHpu i && (decide (0 < s.toPopQ.toNat) || readyTask.handlerTask.pktSize == 0)

def dmaReqPopNz : Bool :=
  match s.dmaReq with
  | [] => false
  | readyTask :: _ => !noFreeHpu i && decide (0 < s.toPopQ.toNat) && readyTask.handlerTask.pktSize != 0

def hpuTaskValid (c : Fin numCores) : Bool := dmaReqPop s i && decide (c.val = freeHpuIdx i)

def toPopD : BitVec p.popWidth :=
  match i.dmaResp, dmaReqPopNz s i with
  | true, false => s.toPopQ + 1
  | false, true => s.toPopQ - 1
  | _, _ => s.toPopQ

def step : State p where
  stateQ := stateD s i
  dmaXferQ := dmaXferOut s i
  toPopQ := toPopD s i
  dmaReq := fifoV3Step p.numHersPerCluster s.dmaReq (taskNew s i) (newTask s i) (dmaReqPop s i)
  herAlloc := ClusterRbShim.step s.herAlloc (herAllocInput s i)

end Combinational

end FPsPIN.ClusterScheduler
