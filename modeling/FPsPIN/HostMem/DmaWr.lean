import FPsPIN.Config
import FPsPIN.Lib.Bytes
import FPsPIN.Lib.Run
import Mathlib.Algebra.Group.Nat.Defs

/-!
# The write path to host memory, pspin_hostmem_dma_wr

A burst of the AXI write channels is stored in a RAM by a DMA client, and then
one descriptor makes the DMA engine copy the RAM to the host. The strobes of
the first and of the last beat cut the ends of the copied range.

Of the client, a block of the PCIe library, only the documented behaviour is
here: after it has taken a descriptor it stores the kept bytes of the beats, up
to the last one, and then reports once. When it does so is an input. The
asserts, which exist only in simulation, are left out, and so are the fields
that only they look at.
-/

namespace FPsPIN.HostMem

open Bytes Config

structure Params where
  ramAddrWidth : Nat
  /-- A word of the bus fits the RAM. -/
  bus_le : 6 ≤ ramAddrWidth

def ramOf64K : Params := ⟨16, Nat.le_of_ble_eq_true rfl⟩

abbrev RamAddr (p : Params) := BitVec p.ramAddrWidth

abbrev DmaLen := BitVec 16

abbrev AxiId := BitVec 8

structure Aw where
  id : AxiId
  addr : HostAddr
  len : BitVec 8
deriving DecidableEq

structure Beat where
  data : BitVec 512
  strb : BitVec 64
  last : Bool
deriving DecidableEq

/-- Module clz on the 2 ^ (k + 1) bits of a vector. The top bit of a count is set if no bit of its half is. -/
def clz : (k : Nat) → (Nat → Bool) → BitVec (k + 2)
  | 0, vector => if !vector 1 && !vector 0 then 2 else if !vector 1 && vector 0 then 1 else 0
  | k + 1, vector =>
    let doutL := clz k fun i => vector (i + 2 ^ (k + 1))
    let doutR := clz k vector
    if !doutL.msb then BitVec.cons (doutL.msb && doutR.msb) (BitVec.cons false (doutL.setWidth (k + 1)))
    else BitVec.cons (doutL.msb && doutR.msb) (BitVec.cons (!doutR.msb) (doutR.setWidth (k + 1)))

/-- Zeros below the first strobe, cut to the width of the wire. -/
def lzFront (strb : BitVec 64) : BitVec 6 := (clz 5 fun i => strb.getLsbD (63 - i)).setWidth 6

def lzBack (strb : BitVec 64) : BitVec 6 := (clz 5 strb.getLsbD).setWidth 6

inductive Phase where
  | idle
  | issueToClient
  | waitClient
  | waitClientFin
  | issueToDma
  | waitDma
  | waitDmaFin
  | finishAxi
deriving DecidableEq

inductive ClientPhase where
  | idle
  | write
  | dropData
deriving DecidableEq

structure Client (p : Params) where
  phase : ClientPhase
  addr : RamAddr p
  cycleCount : Nat
  tag : AxiId
  /-- Tags of the finished descriptors that are not reported yet. -/
  statuses : List AxiId

structure Desc (p : Params) where
  dmaAddr : HostAddr
  ramAddr : RamAddr p
  len : DmaLen
  tag : BitVec 16
deriving DecidableEq

structure State (p : Params) where
  stateQ : Phase
  awready : Bool
  bvalid : Bool
  bid : AxiId
  /-- The response is OKAY. -/
  bokay : Bool
  clientDescLen : DmaLen
  clientDescTag : AxiId
  clientDescValid : Bool
  desc : Desc p
  descValid : Bool
  savedDmaAddr : HostAddr
  savedDmaLen : DmaLen
  frontOff : HostAddr
  backOff : HostAddr
  frontOffSet : Bool
  client : Client p
  ram : RamAddr p → Byte

structure Input where
  awvalid : Bool
  aw : Aw
  wvalid : Bool
  beat : Beat
  bready : Bool
  descReady : Bool
  dmaStatusValid : Bool
  dmaStatusTag : BitVec 16
  dmaStatusError : BitVec 4
  /-- The client is willing to take a descriptor, to take a beat, to report. -/
  clientTakes : Bool
  clientStores : Bool
  clientReports : Bool

variable {p : Params}

def noDesc (p : Params) : Desc p := ⟨0, 0, 0, 0⟩

def init (p : Params) (ram : RamAddr p → Byte) : State p where
  stateQ := .idle
  awready := true
  bvalid := false
  bid := 0
  bokay := true
  clientDescLen := 0
  clientDescTag := 0
  clientDescValid := false
  desc := noDesc p
  descValid := false
  savedDmaAddr := 0
  savedDmaLen := 0
  frontOff := 0
  backOff := 0
  frontOffSet := false
  client := ⟨.idle, 0, 0, 0, []⟩
  ram := ram

/-- RAM after a beat; only bytes with a strobe are written. -/
def writeBeat (addr : RamAddr p) (beat : Beat) (ram : RamAddr p → Byte) : RamAddr p → Byte := fun x =>
  let lane := (x - addr).toNat
  if lane < 64 ∧ beat.strb.getLsbD lane = true then beat.data.extractLsb' (8 * lane) 8 else ram x

section Combinational

variable (s : State p) (i : Input)

/-- Bytes of the beats of a burst, without regard to strobes. -/
def dmaLen : DmaLen := BitVec.ofNat 16 (64 * (i.aw.len.toNat + 1))

def awTaken : Bool := s.awready && i.awvalid

def clientDescReady : Bool := s.client.phase == .idle && i.clientTakes

def clientDescTaken : Bool := s.clientDescValid && clientDescReady s i

def wready : Bool := s.client.phase != .idle && i.clientStores

def beatTaken : Bool := i.wvalid && wready s i

def clientStatusValid : Bool := !s.client.statuses.isEmpty && i.clientReports

def descTaken : Bool := s.descValid && i.descReady

def stateD : Phase :=
  match s.stateQ with
  | .idle => if awTaken s i then .issueToClient else .idle
  | .issueToClient | .waitClient => if clientDescTaken s i then .waitClientFin else .waitClient
  | .waitClientFin => if clientStatusValid s i then .issueToDma else .waitClientFin
  | .issueToDma | .waitDma => if descTaken s i then .waitDmaFin else .waitDma
  | .waitDmaFin => if i.dmaStatusValid then .finishAxi else .waitDmaFin
  | .finishAxi => if i.bready && s.bvalid then .idle else .finishAxi

/-- The client's descriptor always has RAM address 0 and covers full words of the bus. -/
def clientStep : Client p :=
  let statuses := if clientStatusValid s i then s.client.statuses.tail else s.client.statuses
  match s.client.phase with
  | .idle =>
    if clientDescTaken s i then ⟨.write, 0, (s.clientDescLen.toNat - 1) / 64, s.clientDescTag, statuses⟩
    else { s.client with statuses := statuses }
  | .write =>
    if beatTaken s i then
      let addr := s.client.addr + 64
      if i.beat.last then ⟨.idle, addr, s.client.cycleCount - 1, s.client.tag, statuses ++ [s.client.tag]⟩
      else if s.client.cycleCount = 0 then ⟨.dropData, addr, 0, s.client.tag, statuses ++ [s.client.tag]⟩
      else ⟨.write, addr, s.client.cycleCount - 1, s.client.tag, statuses⟩
    else { s.client with statuses := statuses }
  | .dropData =>
    if beatTaken s i && i.beat.last then { s.client with phase := .idle, statuses := statuses }
    else { s.client with statuses := statuses }

def ramD : RamAddr p → Byte :=
  if s.client.phase == .write && beatTaken s i then writeBeat s.client.addr i.beat s.ram else s.ram

def common : State p := { s with stateQ := stateD s i, client := clientStep s i, ram := ramD s i }

def step : State p :=
  match stateD s i with
  | .idle =>
    { common s i with
      awready := true, bid := 0, bokay := true, bvalid := false, clientDescLen := 0, clientDescTag := 0
      clientDescValid := false, desc := noDesc p, descValid := false, frontOff := 0, backOff := 0
      frontOffSet := false }
  | .issueToClient =>
    { common s i with
      clientDescLen := dmaLen i, clientDescTag := i.aw.id, clientDescValid := true, savedDmaAddr := i.aw.addr
      savedDmaLen := dmaLen i, awready := false }
  | .waitClient =>
    { common s i with clientDescValid := if clientDescReady s i then false else s.clientDescValid }
  | .waitClientFin =>
    { common s i with
      clientDescValid := false
      frontOff := if !s.frontOffSet && beatTaken s i then (lzFront i.beat.strb).setWidth 64 else s.frontOff
      frontOffSet := s.frontOffSet || beatTaken s i
      backOff := if beatTaken s i && i.beat.last then (lzBack i.beat.strb).setWidth 64 else s.backOff }
  | .issueToDma =>
    { common s i with
      desc :=
        { dmaAddr := s.savedDmaAddr + s.frontOff
          ramAddr := s.frontOff.setWidth _
          len := (s.savedDmaLen.setWidth 64 - s.frontOff - s.backOff).setWidth 16
          tag := (s.client.statuses.headD 0).setWidth 16 }
      descValid := true }
  | .waitDma => { common s i with descValid := if i.descReady then false else s.descValid }
  | .waitDmaFin => { common s i with descValid := false }
  | .finishAxi =>
    { common s i with bid := i.dmaStatusTag.setWidth 8, bokay := i.dmaStatusError == 0, bvalid := true }

end Combinational

/-- Host memory after the DMA engine has done a descriptor. -/
def hostAfter (d : Desc p) (ram : RamAddr p → Byte) (host : HostAddr → Byte) : HostAddr → Byte := fun x =>
  let k := (x - d.dmaAddr).toNat
  if k < d.len.toNat then ram (d.ramAddr + BitVec.ofNat _ k) else host x

end FPsPIN.HostMem
