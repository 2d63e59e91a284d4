import FPsPIN.HpuDriver.HostWrite
import FPsPIN.SocDma.Block

/-!
# The commands of the runtime

Functions spin_dma_to_host, spin_dma_from_host, spin_send_packet and
spin_rdma_put store each a whole command, word by word, and issue it. The DMA
command is read with a field of one bit behind its length and the NIC command
without, so the two put the same registers to different use. The egress
datapath takes address and length of a NIC command and ignores the rest (its
read engine is built for lengths of 16 bits, which is behind the command); the
user pointers of both commands are never stored, and never read.
-/

namespace FPsPIN.HpuDriver.CmdFrontend

open CmdDescr Config Run

/-- The assembly of spin_dma_to_host and spin_dma_from_host. -/
def spinDma (direction : BitVec 32) (hostAddr : BitVec 64) (nicAddr length : BitVec 32) (generateEvent : Bool) :
    List Access :=
  let hostAddressHigh := (hostAddr >>> 32).setWidth 32
  let hostAddressLow := hostAddr.setWidth 32
  let cmdInfo := (BitVec.ofBool generateEvent).setWidth 32
  [.store (baseAddr + 148) hostAddressHigh, .store (baseAddr + 144) hostAddressLow,
    .store (baseAddr + 152) nicAddr, .store (baseAddr + 156) length, .store (baseAddr + 160) direction,
    .store (baseAddr + 140) cmdInfo, .load (baseAddr + 128)]

def spinDmaToHost := spinDma 1

def spinDmaFromHost := spinDma 0

/-- The assembly of spin_rdma_put and spin_send_packet. -/
def spinNicSend (dest fid data length : BitVec 32) : List Access :=
  let srcAddrHigh : BitVec 32 := 0
  let cmdInfo : BitVec 32 := 2
  [.store (baseAddr + 144) dest, .store (baseAddr + 148) fid, .store (baseAddr + 152) data,
    .store (baseAddr + 156) srcAddrHigh, .store (baseAddr + 160) length, .store (baseAddr + 140) cmdInfo,
    .load (baseAddr + 128)]

def spinRdmaPut (dest data length : BitVec 32) : List Access := spinNicSend dest 1 data length

def spinSendPacket (data length : BitVec 32) : List Access := spinNicSend 0 0 data length

inductive Operation where
  | dmaToHost (hostAddr : BitVec 64) (nicAddr length : BitVec 32) (generateEvent : Bool)
  | dmaFromHost (hostAddr : BitVec 64) (nicAddr length : BitVec 32) (generateEvent : Bool)
  | sendPacket (data length : BitVec 32)
  | rdmaPut (dest data length : BitVec 32)

namespace Operation

def accesses : Operation → List Access
  | dmaToHost hostAddr nicAddr length generateEvent => spinDmaToHost hostAddr nicAddr length generateEvent
  | dmaFromHost hostAddr nicAddr length generateEvent => spinDmaFromHost hostAddr nicAddr length generateEvent
  | sendPacket data length => spinSendPacket data length
  | rdmaPut dest data length => spinRdmaPut dest data length

variable {numCmds : Nat}

/-- What the consumers read from the command are the arguments. -/
def CarriedBy (cmd : PspinCmd numCmds) : Operation → Prop
  | dmaToHost hostAddr nicAddr length generateEvent =>
    cmd.intfId = cmdEdmaId ∧ cmd.cmdType = .hostMemCpy ∧ cmd.generateEvent = generateEvent ∧
      SocDma.directionOf cmd = .rx ∧
      SocDma.xferDescr cmd =
        ⟨length, (1#1 ++ hostAddr : BitVec 65), (0#33 ++ nicAddr : BitVec 65), false, true, false⟩
  | dmaFromHost hostAddr nicAddr length generateEvent =>
    cmd.intfId = cmdEdmaId ∧ cmd.cmdType = .hostMemCpy ∧ cmd.generateEvent = generateEvent ∧
      SocDma.directionOf cmd = .tx ∧
      SocDma.xferDescr cmd =
        ⟨length, (0#33 ++ nicAddr : BitVec 65), (1#1 ++ hostAddr : BitVec 65), false, true, false⟩
  | sendPacket data length =>
    cmd.intfId = cmdNicOutboundId ∧ cmd.cmdType = .nicSend ∧ cmd.generateEvent = false ∧
      nicCmd cmd.words = ⟨0, 0, (0#32 ++ data : BitVec 64), length⟩
  | rdmaPut dest data length =>
    cmd.intfId = cmdNicOutboundId ∧ cmd.cmdType = .nicSend ∧ cmd.generateEvent = false ∧
      nicCmd cmd.words = ⟨dest, 1, (0#32 ++ data : BitVec 64), length⟩

end Operation

section Words

theorem hostDmaCmd_eq {words : Fin 19 → BitVec 32} {hostAddr : BitVec 64} {nicAddr length direction : BitVec 32}
    (hLow : wordAt words 0 = hostAddr.setWidth 32) (hHigh : wordAt words 1 = (hostAddr >>> 32).setWidth 32)
    (hNic : wordAt words 2 = nicAddr) (hLength : wordAt words 3 = length)
    (hDirection : wordAt words 4 = direction) :
    hostDmaCmd words = ⟨hostAddr, nicAddr, length, direction.getLsbD 0⟩ := by
  have hAddr : (descrBits words).extractLsb' 0 64 = hostAddr := extract_pair (by decide) hLow hHigh
  have hNicAddr : (descrBits words).extractLsb' 64 32 = nicAddr := (extract_word words (by decide)).trans hNic
  have hSize : (descrBits words).extractLsb' 96 32 = length := (extract_word words (by decide)).trans hLength
  have hBit : (descrBits words).getLsbD 128 = direction.getLsbD 0 := by
    rw [getLsbD_descrBits (w := 4) (b := 0) words (by decide) (by decide) rfl, hDirection]
  rw [hostDmaCmd, hAddr, hNicAddr, hSize, hBit]

theorem nicCmd_eq {words : Fin 19 → BitVec 32} {dest fid data length : BitVec 32} (hDest : wordAt words 0 = dest)
    (hFid : wordAt words 1 = fid) (hData : wordAt words 2 = data) (hHigh : wordAt words 3 = 0)
    (hLength : wordAt words 4 = length) : nicCmd words = ⟨dest, fid, (0#32 ++ data : BitVec 64), length⟩ := by
  have hNid : (descrBits words).extractLsb' 0 32 = dest := (extract_word words (by decide)).trans hDest
  have hFlow : (descrBits words).extractLsb' 32 32 = fid := (extract_word words (by decide)).trans hFid
  have hSize : (descrBits words).extractLsb' 128 32 = length := (extract_word words (by decide)).trans hLength
  have hAddr : (descrBits words).extractLsb' 64 64 = (0#32 ++ data : BitVec 64) := by
    have hLowWord : wordAt words 2 = (0#32 ++ data : BitVec 64).setWidth 32 := by
      rw [hData, BitVec.setWidth_append]
      simp
    have hHighWord : wordAt words 3 = ((0#32 ++ data : BitVec 64) >>> 32).setWidth 32 := by
      rw [hHigh]
      apply BitVec.eq_of_getLsbD_eq
      intro i hi
      rw [BitVec.getLsbD_setWidth, BitVec.getLsbD_ushiftRight, BitVec.getLsbD_append, if_neg (by omega)]
      simp
    exact extract_pair (by decide) hLowWord hHighWord
  rw [nicCmd, hNid, hFlow, hAddr, hSize]

theorem spinDma_regs (direction : BitVec 32) (hostAddr : BitVec 64) (nicAddr length : BitVec 32)
    (generateEvent : Bool) (r : CmdRegs) :
    ∃ words, (spinDma direction hostAddr nicAddr length generateEvent).dropLast.foldl CmdRegs.access r =
        ⟨cmdEdmaId, .hostMemCpy, words, generateEvent⟩ ∧
      hostDmaCmd words = ⟨hostAddr, nicAddr, length, direction.getLsbD 0⟩ := by
  cases generateEvent <;> exact ⟨_, rfl, hostDmaCmd_eq rfl rfl rfl rfl rfl⟩

theorem spinNicSend_regs (dest fid data length : BitVec 32) (r : CmdRegs) :
    ∃ words, (spinNicSend dest fid data length).dropLast.foldl CmdRegs.access r =
        ⟨cmdNicOutboundId, .nicSend, words, false⟩ ∧
      nicCmd words = ⟨dest, fid, (0#32 ++ data : BitVec 64), length⟩ :=
  ⟨_, rfl, nicCmd_eq rfl rfl rfl rfl rfl⟩

end Words

section Calls

variable {p : Params} {s : Nat → State p} {i : Nat → Input p} {t u : Nat}

theorem spinDma_command (hRun : CoreRuns s i) {direction nicAddr length : BitVec 32} {hostAddr : BitVec 64}
    {generateEvent : Bool} (h : Granted s i (spinDma direction hostAddr nicAddr length generateEvent) t u) :
    ∃ cmd, pushed s i t (u + 1) = [cmd] ∧ cmd.intfId = cmdEdmaId ∧ cmd.cmdType = .hostMemCpy ∧
      cmd.generateEvent = generateEvent ∧
      hostDmaCmd cmd.words = ⟨hostAddr, nicAddr, length, direction.getLsbD 0⟩ := by
  have hStores : ∀ add, .load add ∉ (spinDma direction hostAddr nicAddr length generateEvent).dropLast := by
    simp [spinDma]
  obtain ⟨cmd, hPushed, hRegs⟩ := Granted.command hRun h hStores
  obtain ⟨words, hCmd, hDescr⟩ := spinDma_regs direction hostAddr nicAddr length generateEvent (regs (s t).cmdQ)
  obtain ⟨hIntf, hType, rfl, hEvent⟩ := CmdRegs.mk.inj (hRegs.trans hCmd)
  exact ⟨cmd, hPushed, hIntf, hType, hEvent, hDescr⟩

theorem spinNicSend_command (hRun : CoreRuns s i) {dest fid data length : BitVec 32}
    (h : Granted s i (spinNicSend dest fid data length) t u) :
    ∃ cmd, pushed s i t (u + 1) = [cmd] ∧ cmd.intfId = cmdNicOutboundId ∧ cmd.cmdType = .nicSend ∧
      cmd.generateEvent = false ∧ nicCmd cmd.words = ⟨dest, fid, (0#32 ++ data : BitVec 64), length⟩ := by
  have hStores : ∀ add, .load add ∉ (spinNicSend dest fid data length).dropLast := by
    simp [spinNicSend]
  obtain ⟨cmd, hPushed, hRegs⟩ := Granted.command hRun h hStores
  obtain ⟨words, hCmd, hDescr⟩ := spinNicSend_regs dest fid data length (regs (s t).cmdQ)
  obtain ⟨hIntf, hType, rfl, hEvent⟩ := CmdRegs.mk.inj (hRegs.trans hCmd)
  exact ⟨cmd, hPushed, hIntf, hType, hEvent, hDescr⟩

theorem nicSide_eq (cmd : HostDmaCmd) : SocDma.nicSide cmd = (0#33 ++ cmd.nicAddr : BitVec 65) := by
  apply BitVec.eq_of_getLsbD_eq
  intro i hi
  rw [SocDma.nicSide, BitVec.getLsbD_setWidth, BitVec.getLsbD_append, decide_eq_true hi, Bool.true_and]
  rcases Nat.lt_or_ge i 32 with hLow | hHigh
  · rw [if_pos hLow]
  · rw [if_neg (Nat.not_lt.mpr hHigh), BitVec.getLsbD_of_ge _ _ hHigh, BitVec.getLsbD_zero]

/-- The one command a call pushes carries the arguments, whatever the calls before it have stored. -/
theorem operation_carried (hRun : CoreRuns s i) (op : Operation) (h : Granted s i op.accesses t u) :
    ∃ cmd, pushed s i t (u + 1) = [cmd] ∧ op.CarriedBy cmd := by
  cases op with
  | dmaToHost hostAddr nicAddr length generateEvent =>
    obtain ⟨cmd, hPushed, hIntf, hType, hEvent, hDescr⟩ := spinDma_command hRun h
    refine ⟨cmd, hPushed, hIntf, hType, hEvent, ?_, ?_⟩
    · rw [SocDma.directionOf, hDescr]
      rfl
    · rw [SocDma.xferDescr, nicSide_eq, hDescr]
      rfl
  | dmaFromHost hostAddr nicAddr length generateEvent =>
    obtain ⟨cmd, hPushed, hIntf, hType, hEvent, hDescr⟩ := spinDma_command hRun h
    refine ⟨cmd, hPushed, hIntf, hType, hEvent, ?_, ?_⟩
    · rw [SocDma.directionOf, hDescr]
      rfl
    · rw [SocDma.xferDescr, nicSide_eq, hDescr]
      rfl
  | sendPacket data length => exact spinNicSend_command hRun h
  | rdmaPut dest data length => exact spinNicSend_command hRun h

section Sequence

/-- A core that makes one access a cycle, with a consumer that takes every command at once. -/
def issueAll (accesses : List Access) (t : Nat) : Input twoIds :=
  match accesses[t]? with
  | some (.store add wdata) => ⟨true, add, false, wdata, false, zeroId _, false, true⟩
  | some (.load add) => ⟨true, add, true, 0, false, zeroId _, false, true⟩
  | none => ⟨false, 0, true, 0, false, zeroId _, false, true⟩

theorem issueAll_runs {accesses : List Access}
    (hGranted : ∀ t < accesses.length,
      gnt (stateAt step (init twoIds) (issueAll accesses) t) (issueAll accesses t) = true) :
    CoreRuns (stateAt step (init twoIds) (issueAll accesses)) (issueAll accesses) where
  start := rfl
  next _ := rfl
  held t hReq hGnt := by
    rcases Nat.lt_or_ge t accesses.length with ht | ht
    · rw [hGranted t ht] at hGnt
      cases hGnt
    · rw [issueAll, List.getElem?_eq_none ht] at hReq
      cases hReq

/-- A packet that is sent, and then a transfer from the host over the words that are left. -/
def sendThenFetch : List Access :=
  (Operation.sendPacket 0xffffffff 0xffffffff).accesses ++
    (Operation.dmaFromHost 0x123456789abcdef0 0x1c000040 0x40 true).accesses

theorem operation_carried_sendThenFetch :
    ∃ cmd, pushed (stateAt step (init twoIds) (issueAll sendThenFetch)) (issueAll sendThenFetch) 7 14 = [cmd] ∧
      (Operation.dmaFromHost 0x123456789abcdef0 0x1c000040 0x40 true).CarriedBy cmd := by
  apply operation_carried (issueAll_runs (by decide +kernel))
  constructor
  · decide
  · decide +kernel
  · decide +kernel

end Sequence

end Calls

end FPsPIN.HpuDriver.CmdFrontend
