import FPsPIN.Lib.Bytes

/-!
# Headers of a frame

Fields of Ethernet, IPv4 and UDP headers in network order. The UDP header is
where the length field of the IP header says, in words of four bytes.
-/

namespace FPsPIN.Headers

open Bytes

variable (frame : Memory)

def macDest : BitVec 48 := loadBE 6 frame 0

def macSource : BitVec 48 := loadBE 6 frame 6

def etherType : BitVec 16 := loadBE 2 frame 12

/-- Words of the IP header. -/
def ihl : Nat := (frame 14).toNat % 16

def ipLength : BitVec 16 := loadBE 2 frame 16

def ipProtocol : BitVec 8 := frame 23

def ipSource : BitVec 32 := loadBE 4 frame 26

def ipDest : BitVec 32 := loadBE 4 frame 30

def ipWords : List (BitVec 16) := (List.range (2 * ihl frame)).map fun k => loadBE 2 frame (14 + 2 * k)

def udpAt : Nat := 14 + 4 * ihl frame

def udpSrcPort : BitVec 16 := loadBE 2 frame (udpAt frame)

def udpDstPort : BitVec 16 := loadBE 2 frame (udpAt frame + 2)

def udpLength : BitVec 16 := loadBE 2 frame (udpAt frame + 4)

def udpPayload : List Byte := (List.range ((udpLength frame).toNat - 8)).map fun k => frame (udpAt frame + 8 + k)

variable {frame}

theorem udpAt_of_ihl (h : ihl frame = 5) : udpAt frame = 34 := by
  rw [udpAt, h]

end FPsPIN.Headers
