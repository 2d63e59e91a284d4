import FPsPIN.Loader.SlmpClassification
import FPsPIN.Slmp.Reassembly

/-!
# Memory of the message handlers

The transfer of slmp_ph takes its length from the UDP header and its place from
the SLMP header of the packet. Neither is compared with the size of the packet
or of the host memory, although the size of the host memory is at hand in the
task and other handlers look at it. A UDP length below the two headers wraps to
nearly 4 GiB. The matching rules say nothing about these fields, so they are
those of any sender.
-/

namespace FPsPIN.Slmp

open FPsPIN.Bytes FPsPIN.HostReq FPsPIN.Trace FPsPIN.Loader

/-- Field udp_hdr.length. -/
def udpLengthOf (l1 : Memory) : BitVec 16 := bswap16 (loadLE 2 l1 udpLengthAt)

/-- Every byte that is still to be moved is read from the packet and written to the host memory of the context. -/
def Inside (job : Job) (pktMemSize : Nat → Nat) (hostMemSize : BitVec 32) (s : HandlerState) : Prop :=
  ∀ i, ∀ j ∈ (s.task i).dma.pending, payloadAt + j < pktMemSize i ∧
    job.hostAddr.toNat ≤ (s.task i).dma.hostAddr.toNat + j ∧
    (s.task i).dma.hostAddr.toNat + j < job.hostAddr.toNat + hostMemSize.toNat

/-- Header fields with which the payload ends inside the packet and inside the host memory; or there is none. -/
def FieldsInside (hostAddr : BitVec 64) (hostMemSize : BitVec 32) (pktMemSize : Nat) (frame : Memory) : Prop :=
  (udpLengthOf frame).toNat = 18 ∨
    18 < (udpLengthOf frame).toNat ∧ payloadAt + ((udpLengthOf frame).toNat - 18) ≤ pktMemSize ∧
      hostAddr.toNat + coreCount * pageSize + (pktOffOf frame).toNat < 2 ^ 64 ∧
      coreCount * pageSize + (pktOffOf frame).toNat + ((udpLengthOf frame).toNat - 18) ≤ hostMemSize.toNat

section Fields

theorem toNat_slmpPayloadLen (frame : Memory) :
    (slmpPayloadLen frame).toNat = if 18 ≤ (udpLengthOf frame).toNat then (udpLengthOf frame).toNat - 18
      else 2 ^ 32 + (udpLengthOf frame).toNat - 18 := by
  have hLt : (udpLengthOf frame).toNat < 2 ^ 16 := (udpLengthOf frame).isLt
  change ((udpLengthOf frame).setWidth 32 - 8 - 10).toNat = _
  rw [BitVec.toNat_sub, BitVec.toNat_sub, BitVec.toNat_setWidth]
  split <;> simp <;> omega

theorem dst_eq_add (job : Job) (i j : Nat) : job.dst i j = job.dst i 0 + j := by
  rw [Job.dst, Job.dst, Nat.add_zero]

theorem dst_zero (job : Job) (i : Nat) :
    job.dst i 0 = (job.hostAddr.toNat + coreCount * pageSize + (pktOffOf (job.frame i)).toNat) % 2 ^ 64 := by
  rw [Job.dst, hostStartAddr, Nat.add_zero, BitVec.toNat_add, BitVec.toNat_add, BitVec.toNat_setWidth,
    BitVec.toNat_ofNat]
  simp [coreCount, pageSize]

theorem range_inside_iff {len start base size first limit : Nat} :
    (∀ j < len, first + j < limit ∧ base ≤ start + j ∧ start + j < base + size) ↔
      len = 0 ∨ first + len ≤ limit ∧ base ≤ start ∧ start + len ≤ base + size := by
  constructor
  · intro h
    rcases Nat.eq_zero_or_pos len with hZero | hPos
    · exact .inl hZero
    · have hFirst := h 0 hPos
      have hLast := h (len - 1) (by omega)
      exact .inr (by omega)
  · intro h j hj
    omega

theorem fieldsInside_iff (job : Job) (i : Nat) (pktMemSize : Nat) (hostMemSize : BitVec 32) :
    (∀ j < job.len i, payloadAt + j < pktMemSize ∧ job.hostAddr.toNat ≤ job.dst i 0 + j ∧
        job.dst i 0 + j < job.hostAddr.toNat + hostMemSize.toNat) ↔
      FieldsInside job.hostAddr hostMemSize pktMemSize (job.frame i) := by
  have hOff : (pktOffOf (job.frame i)).toNat < 2 ^ 32 := (pktOffOf (job.frame i)).isLt
  have hSize : hostMemSize.toNat < 2 ^ 32 := hostMemSize.isLt
  have hHost : job.hostAddr.toNat < 2 ^ 64 := job.hostAddr.isLt
  have hPages : coreCount * pageSize = 65536 := rfl
  rw [range_inside_iff, Job.len, toNat_slmpPayloadLen, dst_zero, FieldsInside, hPages]
  split <;> omega

end Fields

theorem exists_started (job : Job) (host : Memory) {i : Nat} (hLt : i < job.count) :
    ∃ s, run (handlerStep job) (HandlerState.init job host) [.header, .start i] = some s ∧
      (∀ j, (s.task i).dma.hostAddr.toNat + j = job.dst i j) ∧ ∀ j < job.len i, j ∈ (s.task i).dma.pending := by
  refine ⟨_, run_cons.mpr ⟨_, rfl, run_cons.mpr ⟨_, if_pos ⟨rfl, hLt, rfl⟩, rfl⟩⟩, ?_⟩
  simp only [HandlerState.setTask, Function.update_self]
  exact ⟨fun _ => rfl, fun _ hj => List.mem_range.mpr hj⟩

/-- The transfers of all runs stay inside their memory exactly if every packet has such header fields. -/
theorem transfers_inside_iff (job : Job) (pktMemSize : Nat → Nat) (hostMemSize : BitVec 32) (host : Memory) :
    (∀ actions s, run (handlerStep job) (HandlerState.init job host) actions = some s →
        Inside job pktMemSize hostMemSize s) ↔
      ∀ i < job.count, FieldsInside job.hostAddr hostMemSize (pktMemSize i) (job.frame i) := by
  constructor
  · intro hAll i hLt
    obtain ⟨s, hRun, hDst, hPending⟩ := exists_started job host hLt
    rw [← fieldsInside_iff]
    intro j hj
    have hInside := hAll _ s hRun i j (hPending j hj)
    rwa [hDst j, dst_eq_add] at hInside
  · intro hFields actions s hRun i j hj
    have hTask := task_invariant (TaskOk job) (fun _ _ _ h hStep => h.step hStep) (TaskOk.init job host) hRun i
    have hStarted : (s.task i).pc ≠ .waiting := by
      intro hWait
      rw [(hTask.waiting hWait).2.1] at hj
      cases hj
    obtain ⟨hLt, hDst, hPending⟩ := hTask.started hStarted
    rw [hDst j, dst_eq_add]
    exact (fieldsInside_iff job i (pktMemSize i) hostMemSize).mpr (hFields i hLt) j (hPending j hj)

/-- A packet for the SLMP port with a UDP length of zero. -/
def zeroLengthFrame : Memory := fun k =>
  if k = 12 then 8 else if k = 23 then 17 else if k = 36 then 0x24 else if k = 37 then 0x72 else 0

def zeroLengthJob : Job := { plainJob [] with count := 1, frame := fun _ => zeroLengthFrame }

/-- In a packet of 64 bytes the transfer reads on behind its end. -/
theorem zeroLength_escapes :
    ¬ ∀ (job : Job) (pktMemSize : Nat → Nat) (hostMemSize : BitVec 32) (host : Memory),
      (∀ i < job.count, IsSlmp (job.frame i)) → ∀ actions s,
        run (handlerStep job) (HandlerState.init job host) actions = some s →
          Inside job pktMemSize hostMemSize s := by
  intro hAll
  have hSlmp : IsSlmp zeroLengthFrame := ⟨by decide, by decide, by decide⟩
  obtain ⟨s, hRun, -, hPending⟩ := exists_started zeroLengthJob (fun _ => 0) Nat.one_pos
  have hLen : 12 < zeroLengthJob.len 0 := by decide
  obtain ⟨hRead, -⟩ := hAll zeroLengthJob (fun _ => 64) 0x100000 (fun _ => 0) (fun _ _ => hSlmp) _ s hRun 0 12
    (hPending 12 hLen)
  exact absurd hRead (by decide)

end FPsPIN.Slmp
