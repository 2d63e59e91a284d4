import FPsPIN.Ingress.HerGen

/-!
# The pspin_ingress_dma block

The handshake of write descriptors with the DMA engine, and the latch that
holds the last completion without error until the HER generator takes it.
-/

namespace FPsPIN.IngressDma

open HerGen

variable {addrWidth lenWidth tagWidth : Nat}

/-- A write descriptor; the DMA engine's tag is the pair of its tag and address. -/
structure WriteDesc (addrWidth lenWidth tagWidth : Nat) where
  addr : BitVec addrWidth
  len : BitVec lenWidth
  tag : BitVec tagWidth
deriving DecidableEq

structure DescStatus (addrWidth lenWidth tagWidth : Nat) where
  completion : Completion addrWidth lenWidth tagWidth
  error : BitVec 4

/-- The registers her_gen_valid, her_gen_addr, her_gen_len and her_gen_tag. -/
structure Latch (addrWidth lenWidth tagWidth : Nat) where
  valid : Bool
  gen : Completion addrWidth lenWidth tagWidth

def Latch.init : Latch addrWidth lenWidth tagWidth := ⟨false, ⟨0, 0, 0⟩⟩

def completed (status : Option (DescStatus addrWidth lenWidth tagWidth)) :
    Option (Completion addrWidth lenWidth tagWidth) :=
  status.bind (fun x => if x.error == 0 then some x.completion else none)

/-- The later assignment wins: the latch is cleared even when a completion arrives. -/
def Latch.step (latch : Latch addrWidth lenWidth tagWidth)
    (status : Option (DescStatus addrWidth lenWidth tagWidth)) (herGenReady : Bool) :
    Latch addrWidth lenWidth tagWidth where
  valid := if latch.valid && herGenReady then false else (completed status).isSome || latch.valid
  gen := (completed status).getD latch.gen

def writeDescReady (dmaReady herGenReady : Bool) : Bool := dmaReady && herGenReady

def dmaDesc (writeDesc : Option (WriteDesc addrWidth lenWidth tagWidth)) (herGenReady : Bool) :
    Option (WriteDesc addrWidth lenWidth tagWidth) :=
  if herGenReady then writeDesc else none

end FPsPIN.IngressDma
