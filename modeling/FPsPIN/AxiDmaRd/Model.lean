import FPsPIN.Lib.Bytes

/-!
# The axi_dma_rd block

One cycle of axi_dma_rd.v. A descriptor is cut into bursts by one state machine
and its words are put on the stream by another, with a register of parameters
between them. Both values of ENABLE_UNALIGNED are modelled. The register
tr_word_count_reg is never read and is left out, the output FIFO is a list, and
the inputs m_axi_rid and m_axi_rlast, which the source does not read, are not
there. The lanes of a word are numbered from the low end.
-/

namespace FPsPIN.AxiDmaRd

open Bytes

structure Params where
  /-- AXI_BURST_SIZE, the logarithm of the number of lanes. -/
  burstSize : Nat
  addrWidth : Nat
  lenWidth : Nat
  maxBurstLen : Nat
  enableUnaligned : Bool
  burstSize_le : burstSize ≤ 12
  /-- A page fits the address space, and the sums of the source have 32 bits. -/
  addrWidth_ge : 12 ≤ addrWidth
  addrWidth_le : addrWidth ≤ 32
  lenWidth_ge : burstSize ≤ lenWidth
  lenWidth_le : lenWidth ≤ 32
  maxBurstLen_pos : 0 < maxBurstLen
  maxBurstLen_le : maxBurstLen ≤ 256

namespace Params

variable (p : Params)

def strbWidth : Nat := 2 ^ p.burstSize

def maxBurstSize : Nat := p.maxBurstLen * p.strbWidth

def cycleCountWidth : Nat := p.lenWidth - p.burstSize + 1

def addrSpace : Nat := 2 ^ p.addrWidth

end Params

abbrev Word := Nat → Byte

structure Sideband where
  axisId : Nat
  axisDest : Nat
  axisUser : Nat
deriving DecidableEq

structure Desc (p : Params) where
  addr : BitVec p.addrWidth
  len : BitVec p.lenWidth
  tag : Nat
  side : Sideband
deriving DecidableEq

/-- Registers axis_cmd_offset_reg to axis_cmd_axis_user_reg, and offset_reg to axis_user_reg. -/
structure AxisCmd where
  offset : Nat
  lastCycleOffset : Nat
  inputCycleCount : Nat
  outputCycleCount : Nat
  bubbleCycle : Bool
  tag : Nat
  side : Sideband

structure OutWord where
  tdata : Word
  tkeep : Nat → Bool
  tlast : Bool
  side : Sideband

inductive AxiState where
  | idle
  | start
deriving DecidableEq

inductive AxisState where
  | idle
  | read
deriving DecidableEq

structure State where
  axiState : AxiState
  descReady : Bool
  araddr : Nat
  arlen : Nat
  arvalid : Bool
  addr : Nat
  opWordCount : Nat
  axisCmd : AxisCmd
  axisCmdValid : Bool
  axisState : AxisState
  rready : Bool
  cur : AxisCmd
  inputActive : Bool
  outputActive : Bool
  firstCycle : Bool
  outputLastCycle : Bool
  rresp : BitVec 2
  statusTag : Nat
  statusError : BitVec 4
  statusValid : Bool
  saveRdata : Word
  outFifo : List OutWord
  outFifoHalfFull : Bool
  readData : OutWord
  readDataValid : Bool

structure Input (p : Params) where
  enable : Bool
  desc : Desc p
  descValid : Bool
  arready : Bool
  rdata : Word
  rresp : BitVec 2
  rvalid : Bool
  tready : Bool

def AxisCmd.zero : AxisCmd := ⟨0, 0, 0, 0, false, 0, ⟨0, 0, 0⟩⟩

def init : State where
  axiState := .idle
  descReady := false
  araddr := 0
  arlen := 0
  arvalid := false
  addr := 0
  opWordCount := 0
  axisCmd := .zero
  axisCmdValid := false
  axisState := .idle
  rready := false
  cur := .zero
  inputActive := false
  outputActive := false
  firstCycle := false
  outputLastCycle := false
  rresp := 0
  statusTag := 0
  statusError := 0
  statusValid := false
  saveRdata _ := 0
  outFifo := []
  outFifoHalfFull := false
  readData := ⟨fun _ => 0, fun _ => false, false, ⟨0, 0, 0⟩⟩
  readDataValid := false

section Descriptors

variable {p : Params} (d : Desc p)

/-- The address that a transfer starts at: without support for unaligned transfers, the address of a word. -/
def startAddr : Nat :=
  if p.enableUnaligned then d.addr.toNat else d.addr.toNat / p.strbWidth * p.strbWidth

/-- Signals axis_cmd_offset_next to axis_cmd_axis_user_next for a descriptor. -/
def axisCmdOf : AxisCmd :=
  let offset := if p.enableUnaligned then (p.strbWidth - d.addr.toNat % p.strbWidth) % p.strbWidth else 0
  { offset := offset
    lastCycleOffset := d.len.toNat % p.strbWidth
    inputCycleCount :=
      (if p.enableUnaligned then (d.len.toNat + d.addr.toNat % p.strbWidth + (2 ^ 32 - 1)) % 2 ^ 32
      else (d.len.toNat + (2 ^ 32 - 1)) % 2 ^ 32) / p.strbWidth % 2 ^ p.cycleCountWidth
    outputCycleCount := (d.len.toNat + (2 ^ 32 - 1)) % 2 ^ 32 / p.strbWidth % 2 ^ p.cycleCountWidth
    bubbleCycle := p.enableUnaligned && decide (0 < offset)
    tag := d.tag
    side := d.side }

end Descriptors

section Requests

variable (p : Params) (s : State) (i : Input p)

/-- Bytes of the next burst, when so many bytes are left from an address on. -/
def trWordCount (addr opWordCount : Nat) : Nat :=
  (if opWordCount ≤ p.maxBurstSize - addr % p.strbWidth ∨ 4096 ≤ p.maxBurstSize then
    if (addr % 4096 + opWordCount % 4096) / 4096 ≠ 0 ∨ opWordCount / 4096 ≠ 0 then 4096 - addr % 4096
    else opWordCount
  else if (addr % 4096 + p.maxBurstSize) / 4096 ≠ 0 then 4096 - addr % 4096
  else p.maxBurstSize - addr % p.strbWidth) % 2 ^ p.lenWidth

def arlenOf (addr trWordCount : Nat) : Nat :=
  (if p.enableUnaligned then (trWordCount + addr % p.strbWidth + (2 ^ 32 - 1)) % 2 ^ 32
  else (trWordCount + (2 ^ 32 - 1)) % 2 ^ 32) / p.strbWidth % 2 ^ 8

def loads : Bool := decide (s.axiState = .idle) && (s.descReady && i.descValid)

def bursts : Bool := decide (s.axiState = .start) && !s.arvalid

def opWordCountNext : Nat :=
  (s.opWordCount + 2 ^ p.lenWidth - trWordCount p s.addr s.opWordCount) % 2 ^ p.lenWidth

def axiStateNext : AxiState :=
  match s.axiState with
  | .idle => if loads p s i then .start else .idle
  | .start => if bursts s && decide (opWordCountNext p s = 0) then .idle else .start

def descReadyNext : Bool :=
  match s.axiState with
  | .idle => if loads p s i then false else !s.axisCmdValid && i.enable
  | .start => if bursts s && decide (opWordCountNext p s = 0) then !s.axisCmdValid && i.enable else false

end Requests

section Stream

variable (p : Params) (s : State) (i : Input p)

def axisCmdReady : Bool := decide (s.axisState = .idle) && s.axisCmdValid

def treadyInt : Bool := !s.outFifoHalfFull

def takesWord : Bool := s.rready && i.rvalid

def moves : Bool := decide (s.axisState = .read) && (takesWord p s i || !s.inputActive)

/-- Signal m_axis_read_data_tvalid_int. -/
def tvalidInt : Bool := moves p s i && !(p.enableUnaligned && (s.firstCycle && s.cur.bubbleCycle))

def finishes : Bool := tvalidInt p s i && s.outputLastCycle

def countDown (count : Nat) : Nat := (count + 2 ^ p.cycleCountWidth - 1) % 2 ^ p.cycleCountWidth

def inputActiveNext : Bool :=
  if moves p s i && s.inputActive then decide (0 < s.cur.inputCycleCount) else s.inputActive

def outputCycleCountNext : Nat :=
  if tvalidInt p s i && s.outputActive then countDown p s.cur.outputCycleCount else s.cur.outputCycleCount

/-- The response so far; a later error replaces an earlier one. -/
def rrespSoFar : BitVec 2 := if takesWord p s i && (i.rresp == 2 || i.rresp == 3) then i.rresp else s.rresp

/-- DMA_ERROR_AXI_RD_SLVERR, DMA_ERROR_AXI_RD_DECERR and DMA_ERROR_NONE. -/
def errorOf (rresp : BitVec 2) : BitVec 4 := if rresp = 2 then 4 else if rresp = 3 then 5 else 0

def shiftAxiRdata : Word := fun j =>
  if j + (p.strbWidth - s.cur.offset) < p.strbWidth then s.saveRdata (j + (p.strbWidth - s.cur.offset))
  else i.rdata (j + (p.strbWidth - s.cur.offset) - p.strbWidth)

def outWord : OutWord where
  tdata := shiftAxiRdata p s i
  tkeep j :=
    if s.outputLastCycle && decide (0 < s.cur.lastCycleOffset) then decide (j < s.cur.lastCycleOffset) else true
  tlast := s.outputLastCycle
  side := s.cur.side

def rreadyNext : Bool :=
  match s.axisState with
  | .idle => s.axisCmdValid && treadyInt s
  | .read => !finishes p s i && (treadyInt s && inputActiveNext p s i)

/-- The registers of the transfer on the stream; in the idle state they follow the waiting command. -/
def curNext : AxisCmd :=
  match s.axisState with
  | .idle => { s.axisCmd with offset := if p.enableUnaligned then s.axisCmd.offset else 0 }
  | .read =>
    { s.cur with
      inputCycleCount :=
        if moves p s i && s.inputActive then countDown p s.cur.inputCycleCount else s.cur.inputCycleCount
      outputCycleCount := outputCycleCountNext p s i
      bubbleCycle := if moves p s i then false else s.cur.bubbleCycle }

end Stream

section Output

variable (p : Params) (s : State) (i : Input p)

def outFifoDepth : Nat := 32

def outFifoPush : Bool := !decide (s.outFifo.length = outFifoDepth) && tvalidInt p s i

def outFifoPop : Bool := !s.outFifo.isEmpty && (!s.readDataValid || i.tready)

end Output

def step (p : Params) (s : State) (i : Input p) : State where
  axiState := axiStateNext p s i
  descReady := descReadyNext p s i
  araddr := if bursts s then s.addr else s.araddr
  arlen := if bursts s then arlenOf p s.addr (trWordCount p s.addr s.opWordCount) else s.arlen
  arvalid := if bursts s then true else s.arvalid && !i.arready
  addr :=
    if loads p s i then startAddr i.desc
    else if bursts s then (s.addr + trWordCount p s.addr s.opWordCount) % p.addrSpace
    else s.addr
  opWordCount :=
    if loads p s i then i.desc.len.toNat else if bursts s then opWordCountNext p s else s.opWordCount
  axisCmd := if loads p s i then axisCmdOf i.desc else s.axisCmd
  axisCmdValid := if loads p s i then true else s.axisCmdValid && !axisCmdReady s
  axisState :=
    match s.axisState with
    | .idle => if s.axisCmdValid then .read else .idle
    | .read => if finishes p s i then .idle else .read
  rready := rreadyNext p s i
  cur := curNext p s i
  inputActive :=
    match s.axisState with
    | .idle => true
    | .read => inputActiveNext p s i
  outputActive :=
    match s.axisState with
    | .idle => true
    | .read => if tvalidInt p s i && s.outputActive then decide (0 < s.cur.outputCycleCount) else s.outputActive
  firstCycle :=
    match s.axisState with
    | .idle => true
    | .read => if moves p s i then false else s.firstCycle
  outputLastCycle :=
    match s.axisState with
    | .idle => decide (s.axisCmd.outputCycleCount = 0)
    | .read => if tvalidInt p s i then decide (outputCycleCountNext p s i = 0) else s.outputLastCycle
  rresp := if finishes p s i then 0 else rrespSoFar p s i
  statusTag := if finishes p s i then s.cur.tag else s.statusTag
  statusError := if finishes p s i then errorOf (rrespSoFar p s i) else s.statusError
  statusValid := finishes p s i
  saveRdata := if moves p s i && takesWord p s i then i.rdata else s.saveRdata
  outFifo :=
    (if outFifoPop p s i then s.outFifo.tail else s.outFifo) ++ if outFifoPush p s i then [outWord p s i] else []
  outFifoHalfFull := decide (outFifoDepth / 2 ≤ s.outFifo.length)
  readData := if outFifoPop p s i then s.outFifo.headD s.readData else s.readData
  readDataValid := if outFifoPop p s i then true else s.readDataValid && !i.tready

end FPsPIN.AxiDmaRd
