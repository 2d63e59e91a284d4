import FPsPIN.HostMem.DmaWr

/-!
# The read path from host memory, pspin_hostmem_dma_rd

A burst of the AXI read channels becomes a descriptor for the DMA engine, which
copies host memory to a RAM. If that succeeds, a DMA client sends the RAM as
the beats of the read channel, and if not, a counter makes as many beats with
the error code.

The client, a block of the PCIe library, is a queue of beats: a descriptor puts
the beats of its length into it, each with its id, the last one marked. When it
takes a descriptor or gives a beat, and the data of the beat, are inputs.
-/

namespace FPsPIN.HostMem.Rd

open Config

structure Ar where
  id : AxiId
  addr : HostAddr
  len : BitVec 8
deriving DecidableEq

/-- A beat of the read channel without its data. -/
structure RBeat where
  id : AxiId
  /-- The response is OKAY. -/
  okay : Bool
  last : Bool
deriving DecidableEq

inductive Phase where
  | idle
  | issueToDma
  | waitDma
  | waitDmaFin
  | issueToClient
  | waitClient
  | waitClientFin
  | finishAxiError
deriving DecidableEq

structure State (p : Params) where
  stateQ : Phase
  arready : Bool
  errorRid : AxiId
  errorRdata : BitVec 512
  errorOkay : Bool
  errorRvalid : Bool
  errorBeatsLeft : BitVec 9
  clientDescLen : DmaLen
  clientDescId : AxiId
  clientDescValid : Bool
  desc : Desc p
  descValid : Bool
  savedDmaLen : DmaLen
  /-- Id and last flag of the beats that the client has to give. -/
  client : List (AxiId × Bool)

structure Input where
  arvalid : Bool
  ar : Ar
  rready : Bool
  descReady : Bool
  dmaStatusValid : Bool
  dmaStatusTag : BitVec 16
  dmaStatusError : BitVec 4
  clientTakes : Bool
  clientGives : Bool
  clientData : BitVec 512

variable {p : Params}

def init (p : Params) : State p where
  stateQ := .idle
  arready := true
  errorRid := 0
  errorRdata := 0
  errorOkay := true
  errorRvalid := false
  errorBeatsLeft := 0
  clientDescLen := 0
  clientDescId := 0
  clientDescValid := false
  desc := noDesc p
  descValid := false
  savedDmaLen := 0
  client := []

def clientBeats (id : AxiId) : Nat → List (AxiId × Bool)
  | 0 => []
  | n + 1 => (id, n == 0) :: clientBeats id n

section Combinational

variable (s : State p) (i : Input)

def numBeats : BitVec 9 := BitVec.ofNat 9 (i.ar.len.toNat + 1)

def dmaLen : DmaLen := BitVec.ofNat 16 (64 * (numBeats i).toNat)

def arTaken : Bool := s.arready && i.arvalid

def descTaken : Bool := s.descValid && i.descReady

def clientDescTaken : Bool := s.clientDescValid && i.clientTakes

def dataRvalid : Bool := !s.client.isEmpty && i.clientGives

def errorRlast : Bool := s.errorBeatsLeft == 1

def rvalid : Bool := if s.stateQ == .finishAxiError then s.errorRvalid else dataRvalid s i

/-- The beat on the read channel; data beats are always OKAY. -/
def rbeat : RBeat :=
  if s.stateQ == .finishAxiError then ⟨s.errorRid, s.errorOkay, errorRlast s⟩
  else ⟨(s.client.headD (0, false)).1, true, (s.client.headD (0, false)).2⟩

def rdata : BitVec 512 := if s.stateQ == .finishAxiError then s.errorRdata else i.clientData

def rTaken : Bool := rvalid s i && i.rready

def stateD : Phase :=
  match s.stateQ with
  | .idle => if arTaken s i then .issueToDma else .idle
  | .issueToDma | .waitDma => if descTaken s i then .waitDmaFin else .waitDma
  | .waitDmaFin =>
    if i.dmaStatusValid then (if i.dmaStatusError != 0 then .finishAxiError else .issueToClient) else .waitDmaFin
  | .issueToClient | .waitClient => if clientDescTaken s i then .waitClientFin else .waitClient
  | .waitClientFin => if rTaken s i && (rbeat s).last then .idle else .waitClientFin
  | .finishAxiError => if rTaken s i && (rbeat s).last then .idle else .finishAxiError

/-- The ready signal of the read channel is the client's in every phase. -/
def clientD : List (AxiId × Bool) :=
  (if dataRvalid s i && i.rready then s.client.tail else s.client) ++
    if clientDescTaken s i then clientBeats s.clientDescId ((s.clientDescLen.toNat + 63) / 64) else []

def common : State p := { s with stateQ := stateD s i, client := clientD s i }

def step : State p :=
  match stateD s i with
  | .idle =>
    { common s i with
      arready := true, errorRid := 0, errorOkay := true, errorRdata := 0, errorRvalid := false, clientDescLen := 0
      clientDescId := 0, clientDescValid := false, desc := noDesc p, descValid := false, errorBeatsLeft := 0 }
  | .issueToDma =>
    { common s i with
      savedDmaLen := dmaLen i, errorBeatsLeft := numBeats i
      desc := { s.desc with dmaAddr := i.ar.addr, len := dmaLen i, tag := i.ar.id.setWidth 16 }
      descValid := true, arready := false }
  | .waitDma => { common s i with descValid := if i.descReady then false else s.descValid }
  | .waitDmaFin => { common s i with descValid := false }
  | .issueToClient =>
    { common s i with
      clientDescLen := s.savedDmaLen, clientDescId := i.dmaStatusTag.setWidth 8, clientDescValid := true }
  | .waitClient => { common s i with clientDescValid := if i.clientTakes then false else s.clientDescValid }
  | .waitClientFin => { common s i with clientDescValid := false }
  | .finishAxiError =>
    { common s i with
      errorOkay := false, errorRdata := 0, errorRid := i.dmaStatusTag.setWidth 8, errorRvalid := true
      errorBeatsLeft := if s.errorRvalid && i.rready then s.errorBeatsLeft - 1 else s.errorBeatsLeft }

end Combinational

end FPsPIN.HostMem.Rd
