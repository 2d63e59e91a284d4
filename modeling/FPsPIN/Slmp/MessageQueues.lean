import Mathlib.Data.Int.ModEq
import FPsPIN.Ingress.Pairing
import FPsPIN.Loader.SlmpClassification
import FPsPIN.MpqEngine.Release
import FPsPIN.MpqEngine.TaskOutput
import FPsPIN.Slmp.Sender

/-!
# The queues of parallel messages

The way of a message id from the sender to the tasks. The parallel sender
passes htonl(i), and the library swaps the bytes again, so that the frame holds
the number least significant byte first. The match engine takes the low bits of
that word, the wires to PsPIN keep ten of them and the scheduler four. A task
carries the number of its queue.
-/

namespace FPsPIN.MpqEngine

open Config Run

variable {p : Params} {b : Boot} {inputs : Nat → Input p}

theorem taken_of_her (hArb : Arbitrated b inputs) {t : Nat} {task : HandlerTask}
    (hTask : task ∈ takenOn b inputs t) :
    ∃ m : Index p, task.msgid.toNat = m.val ∧ ∃ her ∈ hersOn b inputs m 0 t, mpqIdx p her.msgid = m ∧
      (task.pktAddr, task.pktSize) = (her.herAddr, her.xferSize) := by
  have hGranted : task ∈ window (fun u => grants (runAt b inputs u) (inputs u)) 0 t := by
    rw [pipeline_run]
    exact List.mem_append_left _ hTask
  obtain ⟨u, -, hut, hMem⟩ := mem_window.mp hGranted
  rw [grants] at hMem
  split at hMem
  · rename_i hGrant
    rw [List.mem_singleton.mp hMem]
    obtain ⟨mpqMeta, pkt, -, hHead, hTaskOf⟩ := ofGrant_grantedTask hArb hGrant
    rw [(packetsAt_eq_drop hArb _ u).2] at hHead
    obtain ⟨her, hLeft, rfl⟩ := List.mem_map.mp (List.mem_of_head? hHead)
    have hHer := List.mem_of_mem_drop hLeft
    obtain ⟨v, -, hvu, hOn⟩ := mem_window.mp hHer
    refine ⟨tasksentMpqIdx (inputs u), ?_, her, ?_, ?_, Prod.ext hTaskOf.packet.1 hTaskOf.packet.2⟩
    · have hBits : p.numMpq ≤ 2 ^ 10 := Nat.pow_le_pow_right (by omega) p.bits_le
      exact Nat.mod_eq_of_lt (Nat.lt_of_lt_of_le (tasksentMpqIdx (inputs u)).isLt hBits)
    · exact mem_window.mpr ⟨v, Nat.zero_le v, hvu.trans hut, hOn⟩
    · rw [herOn] at hOn
      split at hOn
      · rename_i hNew
        rw [List.mem_singleton.mp hOn]
        exact beq_iff_eq.mp (Bool.and_eq_true_iff.mp hNew).2
      · cases hOn
  · cases hMem

end FPsPIN.MpqEngine

namespace FPsPIN.Slmp

open Bytes Config HerGen Run Trace

section Sender

variable {call : Call} {s s' : State call}

/-- The packets sent so far are packets of the call. -/
def OwnPackets (s : State call) : Prop := ∀ pkt ∈ s.sent, pkt.msgId = call.msgid

theorem OwnPackets.append {out : List Packet} (h : OwnPackets s) (hOut : ∀ pkt ∈ out, pkt.msgId = call.msgid) :
    ∀ pkt ∈ s.sent ++ out, pkt.msgId = call.msgid := by
  intro pkt hMem
  obtain hOld | hNew := List.mem_append.mp hMem
  · exact h pkt hOld
  · exact hOut pkt hNew

theorem msgId_sendSingle {pkt : Packet} (hPkt : pkt.msgId = call.msgid) (expectAck : Bool) (window : Int)
    (reclaimed : List Int) (sendto : Bool) :
    ∀ q ∈ (sendSingle pkt expectAck window reclaimed sendto).out, q.msgId = call.msgid := by
  obtain ⟨-, hOut⟩ | ⟨-, hOut⟩ := sendSingle_cases pkt expectAck window reclaimed sendto
  · rw [hOut]
    intro q hq
    rw [List.mem_singleton.mp hq, hPkt]
  · rw [hOut]
    intro q hq
    cases hq

theorem ownPackets_step {a : Action call} (h : OwnPackets s) (hStep : step s a = some s') : OwnPackets s' := by
  cases step_cases hStep with
  | syn sendto _ => exact h.append (msgId_sendSingle rfl _ _ _ _)
  | send t cur reclaimed sendto _ _ _ => exact h.append (msgId_sendSingle rfl _ _ _ _)
  | last reclaimed sendto _ _ =>
    rw [OwnPackets, State.sendLast]
    split
    · exact h.append (msgId_sendSingle rfl _ _ _ _)
    · exact h
  | _ => exact h

def Sends (call : Call) (pkt : Packet) : Prop :=
  ∃ actions s, run step (State.init call) actions = some s ∧ pkt ∈ s.sent

theorem Sends.msgId {pkt : Packet} (h : Sends call pkt) : pkt.msgId = call.msgid := by
  obtain ⟨actions, s, hRun, hMem⟩ := h
  have hOwn : OwnPackets s := run_invariant OwnPackets (fun _ _ _ h hStep => ownPackets_step h hStep)
    (fun _ h => by cases h) hRun
  exact hOwn pkt hMem

end Sender

section Wires

/-- The wires of pspin_wrap to the scheduler: of the message id the low ten bits are kept. -/
def herDescr {msgidWidth addrWidth : Nat} (x : Her msgidWidth addrWidth) : HerDescr where
  msgid := x.msgid.setWidth 10
  eom := x.isEom
  herAddr := x.addr.setWidth 32
  herSize := x.size.setWidth 32
  xferSize := x.xferSize.setWidth 32
  mpqMeta :=
    { handlerMemAddr := x.herMeta.handlerMemAddr
      handlerMemSize := x.herMeta.handlerMemSize
      hostMemAddr := x.herMeta.hostMemAddr
      hostMemSize := x.herMeta.hostMemSize
      hhAddr := x.herMeta.hhAddr
      hhSize := x.herMeta.hhSize
      phAddr := x.herMeta.phAddr
      phSize := x.herMeta.phSize
      thAddr := x.herMeta.thAddr
      thSize := x.herMeta.thSize
      scratchpadAddr := fun c => x.herMeta.scratchpadAddr (c.castLE (by decide))
      scratchpadSize := fun c => x.herMeta.scratchpadSize (c.castLE (by decide)) }

/-- The ingress datapath of mqnic_app_block, with message ids of 16 bits. -/
def deployedPath : IngressDatapath.Params where
  engine := PktMatch.deployed
  alloc := PktAlloc.deployed
  tagWidth_eq := rfl
  keepWidth_eq := IngressDatapath.fourSlots.keepWidth_eq
  lenWidth_le := by decide

/-- A HER for a frame that carries a packet of message number i, sent with htonl(i) as its message id. -/
def HerOfMessage (i : BitVec 32) (her : HerDescr) : Prop :=
  ∃ (call : Call) (pkt : Packet) (f : PktMatch.Routed deployedPath.engine) (store : HerGen.Store)
    (x : Her deployedPath.engine.msgIdWidth deployedPath.alloc.addrWidth),
    call.msgid = bswap32 i ∧ Sends call pkt ∧ Carries (PktMatch.frameBytes f.beats) pkt ∧
      IngressDatapath.Describes store x f ∧ her = herDescr x

theorem Carries.msgIdWord {frame : Memory} {pkt : Packet} (h : Carries frame pkt) :
    loadLE 4 frame 44 = bswap32 pkt.msgId := by
  have hHeld : Holds frame 44 (bytesLE 4 (bswap32 pkt.msgId)) := h.datagram.right.left
  exact hHeld.loadLE

theorem HerOfMessage.mpqIdx {i : BitVec 32} {her : HerDescr} (h : HerOfMessage i her) :
    (MpqEngine.mpqIdx MpqEngine.deployed her.msgid).val = i.toNat % 16 := by
  obtain ⟨call, pkt, f, store, x, hMsgid, hSends, hCarries, hDescribes, rfl⟩ := h
  have hWord : loadLE 4 (PktMatch.frameBytes f.beats) 44 = i := by
    rw [hCarries.msgIdWord, hSends.msgId, hMsgid, bswap32_bswap32]
  have hHer : x.msgid.toNat = i.toNat % 2 ^ 16 := by
    rw [hDescribes.msgid, Loader.judge_msgId, hWord]
    exact BitVec.toNat_setWidth 16 i
  change (x.msgid.setWidth 10).toNat % 16 = _
  rw [BitVec.toNat_setWidth, hHer]
  omega

end Wires

section Queues

open MpqEngine

variable {b : Boot} {inputs : Nat → Input MpqEngine.deployed}

/-- Of two messages the HERs are queued in the same MPQ exactly if the message numbers agree modulo 16; a task
has the number of its MPQ as its message id, and its packet is that of a HER queued there. -/
theorem parallel_messages (hArb : Arbitrated b inputs) :
    (∀ t u i j, herNew (runAt b inputs t) (inputs t) = true → herNew (runAt b inputs u) (inputs u) = true →
      HerOfMessage i (inputs t).her → HerOfMessage j (inputs u).her →
        (newherMpqIdx (inputs t) = newherMpqIdx (inputs u) ↔ i.toNat ≡ j.toNat [MOD 16])) ∧
      ∀ t, ∀ task ∈ takenOn b inputs t, ∃ m : Index MpqEngine.deployed, task.msgid.toNat = m.val ∧
        ∃ her ∈ hersOn b inputs m 0 t, (task.pktAddr, task.pktSize) = (her.herAddr, her.xferSize) ∧
          ∀ i, HerOfMessage i her → task.msgid.toNat = i.toNat % 16 := by
  constructor
  · intro t u i j _ _ hi hj
    rw [Nat.ModEq, ← hi.mpqIdx, ← hj.mpqIdx]
    exact Fin.ext_iff
  · intro t task hTask
    obtain ⟨m, hMsgid, her, hMem, hIdx, hPkt⟩ := taken_of_her hArb hTask
    refine ⟨m, hMsgid, her, hMem, hPkt, fun i hi => ?_⟩
    rw [hMsgid, ← hIdx, hi.mpqIdx]

def emptyMessage (i : BitVec 32) : Call := ⟨⟨1, 4, 1, Nat.one_pos⟩, bswap32 i, []⟩

def emptyMessageFrame (i : BitVec 32) : PktMatch.Routed deployedPath.engine where
  rules := ⟨fun _ => false, fun _ _ => ⟨0, 0, 0, 0⟩⟩
  beats := [PktMatch.word (0x12#512 <<< 312 ||| 0xc0#512 <<< 336 ||| i.setWidth 512 <<< 352) true]

def emptyMessageHer (i : BitVec 32) : Her deployedPath.engine.msgIdWidth deployedPath.alloc.addrWidth :=
  ⟨i.setWidth 16, true, 0x1c100000, 64, 64, zeroMeta⟩

theorem herOfMessage_empty {i : BitVec 32}
    (hDatagram : (List.range 10).map (fun k => PktMatch.frameBytes (emptyMessageFrame i).beats (42 + k)) =
      (emptyMessage i).firstPacket.bytes)
    (hLength : (List.range 2).map (fun k => PktMatch.frameBytes (emptyMessageFrame i).beats (38 + k)) =
      bytesLE 2 (bswap16 18))
    (hEom : (PktMatch.judge (emptyMessageFrame i).rules (emptyMessageFrame i).beats).eom = true)
    (hSize : (IngressDatapath.frameBytes (emptyMessageFrame i).beats).length = 64) :
    HerOfMessage i (herDescr (emptyMessageHer i)) := by
  have hCarries : Carries (PktMatch.frameBytes (emptyMessageFrame i).beats) (emptyMessage i).firstPacket :=
    ⟨.of_range hDatagram, .of_range hLength⟩
  have hMsgid : (PktMatch.judge (emptyMessageFrame i).rules (emptyMessageFrame i).beats).msgId =
      (emptyMessageHer i).msgid := by
    rw [Loader.judge_msgId, hCarries.msgIdWord]
    change (bswap32 (bswap32 i)).setWidth 16 = i.setWidth 16
    rw [bswap32_bswap32]
  exact ⟨emptyMessage i, (emptyMessage i).firstPacket, emptyMessageFrame i, ⟨fun _ => zeroMeta, fun _ => true⟩,
    emptyMessageHer i, rfl, ⟨[.syn true], _, rfl, List.mem_singleton_self _⟩,
    hCarries, ⟨hMsgid.symm, hEom.symm, rfl, hSize.symm, hSize.symm⟩, rfl⟩

def fiveAndTwentyOne (t : Nat) : Input MpqEngine.deployed where
  herValid := decide (t ≤ 1)
  her := herDescr (emptyMessageHer (if t = 0 then 5 else 21))
  feedbackValid := false
  feedback := ⟨0, 0, 0, false⟩
  taskReady := true
  nicFeedbackReady := true
  mpqArbIdx := mpqIdx MpqEngine.deployed 5

theorem newherMpqIdx_fiveAndTwentyOne (t : Nat) :
    newherMpqIdx (fiveAndTwentyOne t) = mpqIdx MpqEngine.deployed 5 := by
  have hIdx : mpqIdx MpqEngine.deployed (herDescr (emptyMessageHer 21)).msgid = mpqIdx MpqEngine.deployed 5 := by
    decide
  rw [newherMpqIdx, fiveAndTwentyOne]
  split
  · rfl
  · exact hIdx

theorem parallel_messages_fiveAndTwentyOne :
    HerOfMessage 5 (fiveAndTwentyOne 0).her ∧ HerOfMessage 21 (fiveAndTwentyOne 1).her ∧
      newherMpqIdx (fiveAndTwentyOne 0) = newherMpqIdx (fiveAndTwentyOne 1) ∧
      (takenOn blankBoot fiveAndTwentyOne 3).length = 1 ∧
      ∀ task ∈ takenOn blankBoot fiveAndTwentyOne 3, ∃ m : Index MpqEngine.deployed, task.msgid.toNat = m.val ∧
        ∃ her ∈ hersOn blankBoot fiveAndTwentyOne m 0 3, (task.pktAddr, task.pktSize) =
          (her.herAddr, her.xferSize) ∧
          ∀ i, HerOfMessage i her → task.msgid.toNat = i.toNat % 16 :=
  have hArb : Arbitrated blankBoot fiveAndTwentyOne :=
    arb_of_single (mpqIdx MpqEngine.deployed 5) newherMpqIdx_fiveAndTwentyOne (fun _ => rfl)
  have hFive : HerOfMessage 5 (fiveAndTwentyOne 0).her :=
    herOfMessage_empty (by decide +kernel) (by decide +kernel) (by decide +kernel) (by decide +kernel)
  have hTwentyOne : HerOfMessage 21 (fiveAndTwentyOne 1).her :=
    herOfMessage_empty (by decide +kernel) (by decide +kernel) (by decide +kernel) (by decide +kernel)
  have ⟨hSame, hTasks⟩ := parallel_messages hArb
  ⟨hFive, hTwentyOne,
    (hSame 0 1 5 21 (by decide +kernel) (by decide +kernel) hFive hTwentyOne).mpr (by decide),
    by decide +kernel, hTasks 3⟩

end Queues

end FPsPIN.Slmp
