import Mathlib.Algebra.Group.Nat.Defs
import Mathlib.Data.Nat.Log
import FPsPIN.Lib.Run
import FPsPIN.Lib.LatencyFifo

/-!
# The pspin_pkt_alloc block

Two pools of packet slots, large ones (slot 0) and small ones (slot 1), each a
free FIFO of slot addresses and a counter of its own. After reset the block
carves the buffer into slots; then packets take slots and feedbacks return
them. The axis_fifo instances are queues with an output latency.
-/

namespace FPsPIN.PktAlloc

open LatencyFifo

inductive SlotClass where
  | slot0
  | slot1
deriving DecidableEq

structure Params where
  lenWidth : Nat
  tagWidth : Nat
  addrWidth : Nat
  bufStart : BitVec addrWidth
  bufSize : BitVec addrWidth
  slot0Size : BitVec lenWidth
  slot0Count : BitVec lenWidth
  slot1Size : BitVec lenWidth
  slot1Count : BitVec lenWidth
  pktMemAlignment : BitVec lenWidth
  /-- Words held by a free FIFO: DEPTH rounded up, and the output registers. -/
  depth : SlotClass → Nat
  latency : Nat
  latency_pos : 0 < latency
  depth0_ge : slot0Count.toNat ≤ depth .slot0
  depth1_ge : slot1Count.toNat ≤ depth .slot1

namespace Params

variable (p : Params)

def size : SlotClass → Nat
  | .slot0 => p.slot0Size.toNat
  | .slot1 => p.slot1Size.toNat

def count : SlotClass → Nat
  | .slot0 => p.slot0Count.toNat
  | .slot1 => p.slot1Count.toNat

theorem count_le_depth (c : SlotClass) : p.count c ≤ p.depth c := by
  cases c
  · exact p.depth0_ge
  · exact p.depth1_ge

/-- Function size_roundup. The literal 1 makes its sum at least 32 bits wide. -/
def sizeRoundup (pktSize alignment : BitVec p.lenWidth) : BitVec p.lenWidth :=
  let w := max p.lenWidth 32
  let segments := ((pktSize.setWidth w + alignment.setWidth w - 1) >>> Nat.clog 2 alignment.toNat).setWidth p.lenWidth
  segments <<< Nat.clog 2 alignment.toNat

/-- Constant total_size, LEN_WIDTH bits wide as all its operands are. -/
def totalSize : BitVec p.lenWidth := p.slot0Size * p.slot0Count + p.slot1Size * p.slot1Count

/-- The checks of the initial block. -/
def checks : Bool :=
  p.sizeRoundup p.slot0Size p.pktMemAlignment == p.slot0Size &&
    p.sizeRoundup p.slot1Size p.pktMemAlignment == p.slot1Size &&
    decide (p.totalSize.toNat ≤ p.bufSize.toNat)

/-- Constants SLOT0_START and SLOT1_START before they are cut to the address width. -/
def slotStart : SlotClass → Nat
  | .slot0 => p.bufStart.toNat
  | .slot1 => p.bufStart.toNat + p.slot0Count.toNat * p.slot0Size.toNat

/-- The address that the fill phase writes for the k-th slot. -/
def slotAddr (c : SlotClass) (k : Nat) : BitVec p.addrWidth := BitVec.ofNat p.addrWidth (p.slotStart c + p.size c * k)

/-- The pool that serves a length, for packets and for feedbacks. -/
def classOf (len : Nat) : Option SlotClass :=
  if p.size .slot0 ≥ len ∧ len > p.size .slot1 then some .slot0
  else if p.size .slot1 ≥ len then some .slot1
  else none

end Params

/-- The allocator of the deployed ingress datapath, with 16 bit lengths. -/
def deployed : Params where
  lenWidth := 16
  tagWidth := 32
  addrWidth := 32
  bufStart := 0x1c100000
  bufSize := 524288
  slot0Size := 1536
  slot0Count := 256
  slot1Size := 128
  slot1Count := 1024
  pktMemAlignment := 64
  depth
    | .slot0 => 258
    | .slot1 => 1026
  latency := 3
  latency_pos := by decide
  depth0_ge := by decide
  depth1_ge := by decide

structure Pool (p : Params) where
  freeCountQ : BitVec 32
  fifo : Queue (BitVec p.addrWidth)

structure State (p : Params) where
  initialisedQ : Bool
  slot0 : Pool p
  slot1 : Pool p
  droppedPktsQ : BitVec 32

structure Input (p : Params) where
  pktTag : BitVec p.tagWidth
  pktLen : BitVec p.lenWidth
  pktValid : Bool
  feedbackValid : Bool
  feedbackHerAddr : BitVec p.addrWidth
  feedbackHerSize : BitVec p.lenWidth
  writeReady : Bool

variable {p : Params}

def init (p : Params) : State p := ⟨false, ⟨0, []⟩, ⟨0, []⟩, 0⟩

def State.pool (s : State p) : SlotClass → Pool p
  | .slot0 => s.slot0
  | .slot1 => s.slot1

section Combinational

variable (s : State p) (i : Input p)

def enqReady (c : SlotClass) : Bool := ready (p.depth c) (s.pool c).fifo

/-- Outputs deq_valid and deq_data of a free FIFO. -/
def deqOutput (c : SlotClass) : Option (BitVec p.addrWidth) := output p.latency (s.pool c).fifo

def pktReady : Bool :=
  i.writeReady && s.initialisedQ && decide (0 < s.slot0.freeCountQ) && decide (0 < s.slot1.freeCountQ)

def feedbackReady : Bool := enqReady s .slot0 && enqReady s .slot1

/-- The fill phase writes a slot of this pool. -/
def initEnqValid (c : SlotClass) : Bool :=
  !s.initialisedQ && decide ((s.pool c).freeCountQ.toNat < p.count c)

/-- The free counter after the fill phase's part of the cycle. -/
def fillCount (c : SlotClass) : BitVec 32 :=
  if initEnqValid s c && enqReady s c then (s.pool c).freeCountQ + 1 else (s.pool c).freeCountQ

def initialisedD : Bool :=
  s.initialisedQ ||
    (decide ((fillCount s .slot0).toNat = p.count .slot0) && decide ((fillCount s .slot1).toNat = p.count .slot1))

def pktAccepted : Bool := i.pktValid && pktReady s i

def feedbackTaken : Bool := i.feedbackValid && feedbackReady s

/-- The pool from which the accepted packet takes its slot. -/
def allocClass : Option SlotClass := if pktAccepted s i then p.classOf i.pktLen.toNat else none

/-- The pool to which the feedback returns its slot. -/
def freeClass : Option SlotClass := if feedbackTaken s i then p.classOf i.feedbackHerSize.toNat else none

def deqReady (c : SlotClass) : Bool := allocClass s i == some c

/-- The write descriptor issued, address, length and tag: write_valid_o and its data. -/
def writeDesc : Option (BitVec p.addrWidth × BitVec p.lenWidth × BitVec p.tagWidth) :=
  (allocClass s i).bind (fun c => (deqOutput s c).map (fun addr => (addr, i.pktLen, i.pktTag)))

def enqData (c : SlotClass) : Option (BitVec p.addrWidth) :=
  if s.initialisedQ then (if freeClass s i == some c then some i.feedbackHerAddr else none)
  else if initEnqValid s c then some (p.slotAddr c (s.pool c).freeCountQ.toNat)
  else none

def freeCountD (c : SlotClass) : BitVec 32 :=
  fillCount s c - (if deqReady s i c then 1 else 0) + (if freeClass s i == some c then 1 else 0)

def poolD (c : SlotClass) : Pool p where
  freeCountQ := freeCountD s i c
  fifo := LatencyFifo.step (p.depth c) p.latency (s.pool c).fifo (enqData s i c) (deqReady s i c)

def step : State p where
  initialisedQ := initialisedD s
  slot0 := poolD s i .slot0
  slot1 := poolD s i .slot1
  droppedPktsQ :=
    if pktAccepted s i && (p.classOf i.pktLen.toNat).isNone then s.droppedPktsQ + 1 else s.droppedPktsQ

@[simp] theorem step_pool (c : SlotClass) : (step s i).pool c = poolD s i c := by cases c <;> rfl

theorem deqReady_uninitialised (h : s.initialisedQ = false) (c : SlotClass) : deqReady s i c = false := by
  simp [deqReady, allocClass, pktAccepted, pktReady, h]

theorem words_poolD (c : SlotClass) :
    words (poolD s i c).fifo =
      words (if deqReady s i c && (deqOutput s c).isSome then (s.pool c).fifo.tail else (s.pool c).fifo) ++
        if enqReady s c then (enqData s i c).toList else [] :=
  words_step _ _ _ _ _

theorem length_poolD (c : SlotClass) :
    (poolD s i c).fifo.length + (deqReady s i c && (deqOutput s c).isSome).toNat =
      (s.pool c).fifo.length + (enqReady s c && (enqData s i c).isSome).toNat :=
  length_step _ _ _ _ _

end Combinational

end FPsPIN.PktAlloc
