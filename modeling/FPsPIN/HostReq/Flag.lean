import FPsPIN.Lib.Bytes

/-!
# The flag word

One 64 bit word carries a request from an HPU to the host and, with the same
layout, the response: a packed struct of dma_id, len and hpu_id and one byte of
padding. Each HPU has a page of host memory for its requests.
-/

namespace FPsPIN.HostReq

/-- Constant CORE_COUNT. -/
abbrev coreCount : Nat := 16

/-- Constant PAGE_SIZE. -/
def pageSize : Nat := 4096

abbrev HpuId := Fin coreCount

/-- The fields of union fpspin_flag_t. -/
structure Flag where
  dmaId : BitVec 8
  len : BitVec 32
  hpuId : BitVec 16
deriving DecidableEq

namespace Flag

def data (f : Flag) : BitVec 64 := (0 : BitVec 8) ++ f.hpuId ++ f.len ++ f.dmaId

def ofData (d : BitVec 64) : Flag := ⟨d.extractLsb' 0 8, d.extractLsb' 8 32, d.extractLsb' 40 16⟩

theorem ofData_append (pad : BitVec 8) (f : Flag) : ofData (pad ++ f.hpuId ++ f.len ++ f.dmaId) = f := by
  obtain ⟨dmaId, len, hpuId⟩ := f
  have hDmaId : (pad ++ hpuId ++ len ++ dmaId).extractLsb' 0 8 = dmaId := by
    rw [BitVec.extractLsb'_append_eq_of_add_le (by decide), BitVec.extractLsb'_eq_self]
  have hLen : (pad ++ hpuId ++ len ++ dmaId).extractLsb' 8 32 = len := by
    rw [BitVec.extractLsb'_append_eq_of_le (by decide), BitVec.extractLsb'_append_eq_of_add_le (by decide),
      Nat.sub_self, BitVec.extractLsb'_eq_self]
  have hHpuId : (pad ++ hpuId ++ len ++ dmaId).extractLsb' 40 16 = hpuId := by
    rw [BitVec.extractLsb'_append_eq_of_le (by decide), BitVec.extractLsb'_append_eq_of_le (by decide),
      BitVec.extractLsb'_append_eq_of_add_le (by decide), Nat.sub_sub, Nat.sub_self, BitVec.extractLsb'_eq_self]
  exact (Flag.mk.injEq ..).mpr ⟨hDmaId, hLen, hHpuId⟩

@[simp] theorem ofData_data (f : Flag) : ofData f.data = f := ofData_append 0 f

theorem ofData_congr {d e : BitVec 64} (h : d.extractLsb' 0 56 = e.extractLsb' 0 56) : ofData d = ofData e := by
  have hPart (i w : Nat) (hIn : i + w ≤ 56) : d.extractLsb' i w = e.extractLsb' i w := by
    have hPart := congrArg (BitVec.extractLsb' i w) h
    rwa [BitVec.extractLsb'_extractLsb'_of_le hIn, BitVec.extractLsb'_extractLsb'_of_le hIn] at hPart
  rw [ofData, ofData, hPart 0 8 (by decide), hPart 8 32 (by decide), hPart 40 16 (by decide)]

end Flag

/-- Macro HOST_ADDR_HPU: the page of an HPU in the host memory of a context. -/
def hostAddrHpu (hostAddr : BitVec 64) (hpu : HpuId) : BitVec 64 := hostAddr + BitVec.ofNat 64 (hpu * pageSize)

/-- The flag that fpspin_host_req sends, with the counter of the HPU before the call. -/
def flagToHost (dmaIdx : BitVec 8) (hpu : HpuId) (len : BitVec 32) : Flag :=
  ⟨dmaIdx + 1, len, BitVec.ofNat 16 hpu⟩

end FPsPIN.HostReq
