import FPsPIN.Lib.Bytes

/-!
# Packets of the message protocol

What slmp_sendmsg hands to the socket for one segment, the Ethernet frame that
carries it, and what the handlers read back from their copy of the frame. The
offsets are those of struct slmp_pkt_hdr: 14 bytes of Ethernet header, 20 of
IP, 8 of UDP and 10 of SLMP. The network stack fills in the outer headers; only
the UDP length is used here, so it is all that is said about them. A short
frame may carry padding after its payload.
-/

namespace FPsPIN.Slmp

open FPsPIN.Bytes

/-- Constant SLMP_PAYLOAD_SIZE. -/
def slmpPayloadSize : Nat := 1462

def mkEom : BitVec 16 := 0x8000

def mkSyn : BitVec 16 := 0x4000

def mkAck : BitVec 16 := 0x2000

def eom (flags : BitVec 16) : Bool := flags &&& mkEom != 0

def syn (flags : BitVec 16) : Bool := flags &&& mkSyn != 0

/-- A SLMP header with its payload, the header fields in host order. -/
structure Packet where
  flags : BitVec 16
  msgId : BitVec 32
  pktOff : BitVec 32
  payload : List Byte
deriving DecidableEq

namespace Packet

/-- The datagram: struct slmp_hdr in network order, then the payload. -/
def bytes (pkt : Packet) : List Byte :=
  bytesLE 2 (bswap16 pkt.flags) ++ (bytesLE 4 (bswap32 pkt.msgId) ++
    (bytesLE 4 (bswap32 pkt.pktOff) ++ pkt.payload))

theorem length_bytes (pkt : Packet) : pkt.bytes.length = 10 + pkt.payload.length := by
  simp [bytes]
  omega

end Packet

section Layout

/-- Offset of udp_hdr.length in struct slmp_pkt_hdr. -/
def udpLengthAt : Nat := 38

/-- Offset of slmp_hdr. -/
def slmpHdrAt : Nat := 42

/-- Size of struct slmp_pkt_hdr, where the payload starts. -/
def payloadAt : Nat := 52

variable (l1 : Memory)

def flagsOf : BitVec 16 := bswap16 (loadLE 2 l1 slmpHdrAt)

def pktOffOf : BitVec 32 := bswap32 (loadLE 4 l1 (slmpHdrAt + 6))

/-- Macro SLMP_PAYLOAD_LEN, in the 32 bit arithmetic of the cores. -/
def slmpPayloadLen : BitVec 32 := (bswap16 (loadLE 2 l1 udpLengthAt)).setWidth 32 - 8 - 10

end Layout

/-- The frame in which the network stack carries a datagram. -/
structure Carries (frame : Memory) (pkt : Packet) : Prop where
  datagram : Holds frame slmpHdrAt pkt.bytes
  udpLength : Holds frame udpLengthAt (bytesLE 2 (bswap16 (BitVec.ofNat 16 (8 + pkt.bytes.length))))

def plainFrame (pkt : Packet) : Memory :=
  place (place (fun _ => 0) slmpHdrAt pkt.bytes) udpLengthAt
    (bytesLE 2 (bswap16 (BitVec.ofNat 16 (8 + pkt.bytes.length))))

theorem carries_plainFrame (pkt : Packet) : Carries (plainFrame pkt) pkt where
  datagram k b hb := by
    rw [plainFrame, place_of_outside]
    · exact holds_place _ _ _ k b hb
    · rw [length_bytesLE, udpLengthAt, slmpHdrAt]
      omega
  udpLength := holds_place _ _ _

namespace Carries

variable {frame : Memory} {pkt : Packet}

theorem flagsOf (h : Carries frame pkt) : flagsOf frame = pkt.flags := by
  have hHeld : Holds frame slmpHdrAt (bytesLE 2 (bswap16 pkt.flags)) := h.datagram.left
  rw [Slmp.flagsOf, hHeld.loadLE]
  exact bswap16_bswap16 pkt.flags

theorem pktOffOf (h : Carries frame pkt) : pktOffOf frame = pkt.pktOff := by
  have hHeld : Holds frame (slmpHdrAt + 6) (bytesLE 4 (bswap32 pkt.pktOff)) := h.datagram.right.right.left
  rw [Slmp.pktOffOf, hHeld.loadLE]
  exact bswap32_bswap32 pkt.pktOff

theorem payload (h : Carries frame pkt) : Holds frame payloadAt pkt.payload := h.datagram.right.right.right

theorem slmpPayloadLen (h : Carries frame pkt) (hLen : pkt.payload.length ≤ slmpPayloadSize) :
    (slmpPayloadLen frame).toNat = pkt.payload.length := by
  have hBound : pkt.payload.length ≤ 1462 := hLen
  have hLoad : bswap16 (loadLE 2 frame udpLengthAt) = BitVec.ofNat 16 (8 + pkt.bytes.length) := by
    rw [h.udpLength.loadLE]
    exact bswap16_bswap16 _
  rw [Slmp.slmpPayloadLen, hLoad, pkt.length_bytes]
  bv_omega

end Carries

end FPsPIN.Slmp
