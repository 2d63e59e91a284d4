import FPsPIN.Slmp.Handlers
import FPsPIN.Slmp.Sender

/-!
# Reassembly of a message

The handlers write the payloads of a message in any order, each byte once its
write command gets to it. They fill the host buffer correctly because every
packet carries the bytes of its own place: whoever writes an address writes the
same byte there, and the packets leave no gap.
-/

namespace FPsPIN.Slmp

open FPsPIN.Bytes FPsPIN.HostReq FPsPIN.Trace

section Handlers

variable {job : Job} {target : Memory} {s s' : HandlerState}

namespace Job

variable (job : Job)

def len (i : Nat) : Nat := (slmpPayloadLen (job.frame i)).toNat

def dst (i j : Nat) : Nat := (hostStartAddr job.hostAddr + (pktOffOf (job.frame i)).setWidth 64).toNat + j

/-- The packets agree on what belongs to each address, and none is meant for the flag word. -/
structure Consistent (target : Memory) : Prop where
  byte : ∀ i < job.count, ∀ j < job.len i, job.frame i (payloadAt + j) = target (job.dst i j)
  apart : ∀ i < job.count, ∀ j < job.len i, (hostAddrHpu job.hostAddr job.hpu).toNat + 8 ≤ job.dst i j

end Job

/-- What is true of the task of packet i at all times. -/
structure TaskOk (job : Job) (i : Nat) (task : PayloadTask) : Prop where
  payload : ∀ k, payloadAt ≤ k → task.l1 k = job.frame i k
  stores : ∀ stores, task.pc = .acking stores → ∀ st ∈ stores, st.1 + st.2.length ≤ payloadAt
  waiting : task.pc = .waiting → task.l1 = job.frame i ∧ task.dma.pending = [] ∧ task.sending = false
  started : task.pc ≠ .waiting → i < job.count ∧ (∀ j, task.dma.hostAddr.toNat + j = job.dst i j) ∧
    ∀ j ∈ task.dma.pending, j < job.len i

namespace TaskOk

variable {i : Nat} {task : PayloadTask}

theorem init (job : Job) (host : Memory) (i : Nat) : TaskOk job i ((HandlerState.init job host).task i) where
  payload _ _ := rfl
  stores _ h := by cases h
  waiting _ := ⟨rfl, rfl, rfl⟩
  started h := absurd rfl h

theorem slmpPh (h : TaskOk job i task) (hLt : i < job.count) (hPc : task.pc = .waiting) :
    TaskOk job i (slmpPh job.hostAddr task) := by
  obtain ⟨hFresh, -⟩ := h.waiting hPc
  refine ⟨h.payload, ?_, ?_, ?_⟩
  · intro stores hStores
    simp only [Slmp.slmpPh] at hStores
    split at hStores
    · cases hStores
      exact prepareHdrsAck_within task.l1 mkAck
    · cases hStores
  · intro hWait
    simp only [Slmp.slmpPh] at hWait
    split at hWait <;> cases hWait
  · intro _
    refine ⟨hLt, ?_, ?_⟩
    · intro j
      simp only [Slmp.slmpPh, hFresh, Job.dst]
    · intro j hj
      simpa [Slmp.slmpPh, hFresh, Job.len] using hj

theorem store (h : TaskOk job i task) {st : Store} {stores : List Store} (hPc : task.pc = .acking (st :: stores)) :
    TaskOk job i { task with pc := .acking stores, l1 := place task.l1 st.1 st.2 } where
  payload k hk := by
    have hWithin := h.stores _ hPc st List.mem_cons_self
    rw [← h.payload k hk]
    exact place_of_outside (Or.inr (Nat.le_trans hWithin hk))
  stores rest hRest := by
    cases hRest
    exact fun st' hMem => h.stores _ hPc st' (List.mem_cons_of_mem _ hMem)
  waiting hWait := by cases hWait
  started _ := h.started (by simp [hPc])

theorem sendPacket (h : TaskOk job i task) (hPc : task.pc = .acking []) :
    TaskOk job i { task with pc := .returned, sending := true } where
  payload := h.payload
  stores _ hRest := by cases hRest
  waiting hWait := by cases hWait
  started _ := h.started (by simp [hPc])

theorem packetSent (h : TaskOk job i task) : TaskOk job i { task with sending := false } where
  payload := h.payload
  stores := h.stores
  waiting hWait := ⟨(h.waiting hWait).1, (h.waiting hWait).2.1, rfl⟩
  started := h.started

theorem copied (h : TaskOk job i task) (j : Nat) :
    TaskOk job i { task with dma := { task.dma with pending := task.dma.pending.erase j } } where
  payload := h.payload
  stores := h.stores
  waiting hWait := by
    obtain ⟨hFresh, hNone, hSending⟩ := h.waiting hWait
    exact ⟨hFresh, by simp [hNone], hSending⟩
  started hStart := by
    obtain ⟨hLt, hDst, hPending⟩ := h.started hStart
    exact ⟨hLt, hDst, fun j' hj' => hPending j' (List.mem_of_mem_erase hj')⟩

theorem step {task' : PayloadTask} (h : TaskOk job i task) (hStep : TaskStep job i task task') :
    TaskOk job i task' := by
  cases hStep with
  | other => exact h
  | start hLt hPc => exact h.slmpPh hLt hPc
  | store hPc => exact h.store hPc
  | sendPacket hPc => exact h.sendPacket hPc
  | copied j => exact h.copied j
  | packetSent => exact h.packetSent

end TaskOk

/-- The host buffer is right wherever a write command has been. -/
structure Filling (job : Job) (target : Memory) (s : HandlerState) : Prop where
  task : ∀ i, TaskOk job i (s.task i)
  host : ∀ i, (s.task i).pc ≠ .waiting → ∀ j < job.len i, j ∉ (s.task i).dma.pending →
    s.host (job.dst i j) = target (job.dst i j)
  notified : ∀ flag, s.notified = some flag → (∀ i < job.count, (s.task i).finished = true) ∧
    eom (flagsOf (job.frame (job.count - 1))) = true ∧ flag.len = totalLen (job.frame (job.count - 1)) ∧
    Holds s.host (hostAddrHpu job.hostAddr job.hpu).toNat (bytesLE 8 flag.data)

namespace Filling

variable {i : Nat}

theorem init (job : Job) (target host : Memory) : Filling job target (HandlerState.init job host) where
  task := TaskOk.init job host
  host _ h := absurd rfl h
  notified _ h := by cases h

theorem unnotified (h : Filling job target s) (hPc : (s.task i).pc ≠ .waiting) (hBusy : (s.task i).finished = false) :
    s.notified = none := by
  cases hNotified : s.notified with
  | none => rfl
  | some flag =>
    have hLt := ((h.task i).started hPc).1
    exact absurd (((h.notified flag hNotified).1 i hLt).symm.trans hBusy) (by decide)

theorem setTask (h : Filling job target s) {task : PayloadTask} (hNone : s.notified = none)
    (hTask : TaskOk job i task) (hHost : task.pc ≠ .waiting → ∀ j < job.len i, j ∉ task.dma.pending →
      s.host (job.dst i j) = target (job.dst i j)) : Filling job target (s.setTask i task) where
  task i' := by
    by_cases hi : i' = i
    · subst hi
      simpa [HandlerState.setTask] using hTask
    · simpa [HandlerState.setTask, hi] using h.task i'
  host i' hPc j hj hPending := by
    by_cases hi : i' = i
    · subst hi
      simp only [HandlerState.setTask, Function.update_self] at hPc hPending
      exact hHost hPc j hj hPending
    · simp only [HandlerState.setTask, Function.update_of_ne hi] at hPc hPending
      exact h.host i' hPc j hj hPending
  notified flag hFlag := absurd (hNone.symm.trans hFlag) (by simp)

theorem start (h : Filling job target s) (hLt : i < job.count) (hPc : (s.task i).pc = .waiting) :
    Filling job target (s.setTask i (slmpPh job.hostAddr (s.task i))) := by
  have hFresh := ((h.task i).waiting hPc).1
  have hNone : s.notified = none := by
    cases hNotified : s.notified with
    | none => rfl
    | some flag =>
      have hFinished := (h.notified flag hNotified).1 i hLt
      simp [PayloadTask.finished, hPc] at hFinished
  refine h.setTask hNone ((h.task i).slmpPh hLt hPc) ?_
  intro _ j hj hPending
  -- the whole payload is still to be written
  exact absurd (List.mem_range.mpr hj) (by simpa [slmpPh, hFresh, Job.len] using hPending)

theorem copyByte (hJob : job.Consistent target) (h : Filling job target s) {j : Nat}
    (hMem : j ∈ (s.task i).dma.pending) : Filling job target (s.copyByte i j) := by
  have hPc : (s.task i).pc ≠ .waiting := by
    intro hWait
    rw [((h.task i).waiting hWait).2.1] at hMem
    cases hMem
  obtain ⟨hLt, hDst, hPending⟩ := (h.task i).started hPc
  have hByte : (s.task i).l1 (payloadAt + j) = target (job.dst i j) := by
    rw [(h.task i).payload _ (Nat.le_add_right _ _), hJob.byte i hLt j (hPending j hMem)]
  have hNone : s.notified = none := by
    refine h.unnotified hPc ?_
    cases hRest : (s.task i).dma.pending with
    | nil =>
      rw [hRest] at hMem
      cases hMem
    | cons _ _ => simp [PayloadTask.finished, hRest]
  have hHost : ∀ a, a = job.dst i j ∨ s.host a = target a → (s.copyByte i j).host a = target a := by
    intro a ha
    simp only [HandlerState.copyByte, hDst, hByte]
    by_cases hEq : a = job.dst i j
    · rw [hEq, Function.update_self]
    · rw [Function.update_of_ne hEq]
      exact ha.resolve_left hEq
  refine ⟨?_, ?_, ?_⟩
  · exact fun i' => (h.task i').step (taskStep_update (.copied j) i')
  · intro i' hPc' j' hj' hPending'
    apply hHost
    by_cases hi : i' = i
    · subst hi
      simp only [HandlerState.copyByte, Function.update_self] at hPending'
      by_cases hjj : j' = j
      · exact Or.inl (by rw [hjj])
      · exact Or.inr (h.host i' hPc j' hj' fun hOld => hPending' ((List.mem_erase_of_ne hjj).mpr hOld))
    · simp only [HandlerState.copyByte, Function.update_of_ne hi] at hPc' hPending'
      exact Or.inr (h.host i' hPc' j' hj' hPending')
  · intro flag hFlag
    exact absurd (hNone.symm.trans hFlag) (by simp)

theorem slmpTh (hJob : job.Consistent target) (h : Filling job target s)
    (hFinished : ∀ i < job.count, (s.task i).finished = true) : Filling job target (s.slmpTh job) := by
  by_cases hEom : eom (flagsOf (job.frame (job.count - 1))) = true
  · simp only [HandlerState.slmpTh, hEom, if_true]
    refine ⟨h.task, ?_, ?_⟩
    · intro i hPc j hj hPending
      have hApart := hJob.apart i ((h.task i).started hPc).1 j hj
      refine (place_of_outside (Or.inr ?_)).trans (h.host i hPc j hj hPending)
      simpa using hApart
    · intro flag hFlag
      cases hFlag
      exact ⟨hFinished, hEom, rfl, holds_place _ _ _⟩
  · simp only [HandlerState.slmpTh, hEom]
    exact ⟨h.task, h.host, h.notified⟩

theorem step (hJob : job.Consistent target) {a : HandlerAction} (h : Filling job target s)
    (hStep : handlerStep job s a = some s') : Filling job target s' := by
  cases handlerStep_cases hStep with
  | header _ => exact ⟨h.task, h.host, h.notified⟩
  | start _ hLt hPc => exact h.start hLt hPc
  | @store i _ _ hPc =>
    have hStart : (s.task i).pc ≠ .waiting := by simp [hPc]
    exact h.setTask (h.unnotified hStart (by simp [PayloadTask.finished, hPc])) ((h.task i).store hPc)
      fun _ => h.host i hStart
  | @sendPacket i hPc =>
    have hStart : (s.task i).pc ≠ .waiting := by simp [hPc]
    exact h.setTask (h.unnotified hStart (by simp [PayloadTask.finished, hPc])) ((h.task i).sendPacket hPc)
      fun _ => h.host i hStart
  | copy hMem => exact h.copyByte hJob hMem
  | @packetSent i hSending =>
    have hStart : (s.task i).pc ≠ .waiting := by
      intro hWait
      exact absurd (((h.task i).waiting hWait).2.2.symm.trans hSending) (by decide)
    exact h.setTask (h.unnotified hStart (by simp [PayloadTask.finished, hSending])) (h.task i).packetSent
      fun _ => h.host i hStart
  | complete _ _ hFinished => exact h.slmpTh hJob hFinished

end Filling

/-- The handlers report nothing if the first packet opens the message and the last one ends it. -/
theorem printed_run (hHh : slmpHh (job.frame 0) = []) (hTh : eom (flagsOf (job.frame (job.count - 1))) = true)
    {host : Memory} {schedule : List HandlerAction}
    (hRun : run (handlerStep job) (HandlerState.init job host) schedule = some s) : s.printed = [] := by
  refine run_invariant (fun s => s.printed = []) ?_ rfl hRun
  intro s a s' hPrinted hStep
  cases handlerStep_cases hStep with
  | header _ =>
    rw [hPrinted, hHh]
    rfl
  | complete _ _ _ => simpa [HandlerState.slmpTh, hTh] using hPrinted
  | _ => exact hPrinted

end Handlers

section Segments

variable (call : Call)

/-- The packet carries the bytes of the message from an offset on. -/
structure Segment (pkt : Packet) (off : Nat) : Prop where
  pktOff : pkt.pktOff = BitVec.ofNat 32 off
  bytes : ∀ (j : Nat) (b : Byte), pkt.payload[j]? = some b → call.buf[off + j]? = some b
  fits : off + pkt.payload.length ≤ call.sz
  small : pkt.payload.length ≤ slmpPayloadSize

variable {call}

theorem length_payload (hflags : BitVec 16) (cur : Nat) :
    (call.packet hflags cur).payload.length = min call.sock.payloadSize (call.sz - cur) := by
  have hCopy : call.toCopy cur = min call.sock.payloadSize (call.sz - cur) := by
    unfold Call.toCopy
    split <;> omega
  rw [Call.packet, List.length_take, List.length_drop, hCopy, Call.sz]
  omega

theorem segment_packet (hflags : BitVec 16) {cur : Nat} (hCur : cur ≤ call.sz) :
    Segment call (call.packet hflags cur) cur where
  pktOff := rfl
  bytes j b hb := by
    simp only [Call.packet] at hb
    rw [List.getElem?_take, List.getElem?_drop] at hb
    split at hb
    · exact hb
    · cases hb
  fits := by
    rw [length_payload]
    omega
  small := by
    have hLe := call.sock.payloadSize_le
    rw [length_payload]
    omega

theorem loopOffset_le (hPos : 0 < call.sock.payloadSize) {cur : Nat} (hCur : cur ∈ call.loopOffsets) :
    cur + call.sock.payloadSize < call.sz := by
  obtain ⟨k, hk, rfl⟩ := List.mem_map.mp hCur
  exact (call.lt_iterations_iff hPos).mp (List.mem_range.mp hk)

theorem segment_of_mem (hPos : 0 < call.sock.payloadSize) {pkt : Packet} (hMem : pkt ∈ call.packets) :
    ∃ off, Segment call pkt off ∧ (eom pkt.flags = true → off + pkt.payload.length = call.sz) := by
  rw [Call.packets, List.mem_cons, List.mem_append, List.mem_map] at hMem
  obtain rfl | ⟨cur, hCur, rfl⟩ | hLast := hMem
  · refine ⟨0, segment_packet _ (Nat.zero_le _), ?_⟩
    intro hEom
    have hSmall : call.sz ≤ call.sock.payloadSize := eom_firstFlags.mp hEom
    rw [Call.firstPacket, length_payload]
    omega
  · refine ⟨cur, segment_packet _ ?_, ?_⟩
    · have hLt := loopOffset_le hPos hCur
      omega
    · intro hEom
      exact absurd hEom (by simp [Call.loopPacket, Call.packet, eom_loopFlags])
  · split at hLast
    · rename_i hLt
      rw [List.mem_singleton] at hLast
      subst hLast
      refine ⟨call.curAfter, segment_packet _ (Nat.le_of_lt hLt), ?_⟩
      intro _
      have hEnd := call.curAfter_add_ge hPos
      rw [Call.lastPacket, length_payload]
      omega
    · cases hLast

theorem covered (hPos : 0 < call.sock.payloadSize) {k : Nat} (hk : k < call.sz) :
    ∃ pkt ∈ call.packets, ∃ off, Segment call pkt off ∧ off ≤ k ∧ k < off + pkt.payload.length := by
  have hLow : k / call.sock.payloadSize * call.sock.payloadSize ≤ k := Nat.div_mul_le_self _ _
  have hHigh : k < k / call.sock.payloadSize * call.sock.payloadSize + call.sock.payloadSize := Nat.lt_div_mul_add hPos
  rcases Nat.eq_zero_or_pos (k / call.sock.payloadSize) with hFirst | hLater
  · refine ⟨call.firstPacket, List.mem_cons_self, 0, segment_packet _ (Nat.zero_le _), Nat.zero_le _, ?_⟩
    rw [hFirst] at hHigh
    rw [Call.firstPacket, length_payload]
    omega
  by_cases hLoop : k / call.sock.payloadSize - 1 < call.iterations
  · have hCur : k / call.sock.payloadSize * call.sock.payloadSize ∈ call.loopOffsets := by
      refine List.mem_map.mpr ⟨_, List.mem_range.mpr hLoop, ?_⟩
      rw [Nat.sub_add_cancel hLater]
    have hLt := loopOffset_le hPos hCur
    refine ⟨call.loopPacket _, ?_, _, segment_packet _ (by omega), hLow, ?_⟩
    · exact List.mem_cons_of_mem _ (List.mem_append_left _ (List.mem_map_of_mem hCur))
    · rw [Call.loopPacket, length_payload]
      omega
  · have hAfter : call.curAfter ≤ k / call.sock.payloadSize * call.sock.payloadSize :=
      Nat.mul_le_mul_right _ (by omega)
    have hEnd := call.curAfter_add_ge hPos
    have hLast : call.curAfter < call.sz := by omega
    refine ⟨call.lastPacket, ?_, call.curAfter, segment_packet _ (Nat.le_of_lt hLast), by omega, ?_⟩
    · simp [Call.packets, hLast]
    · rw [Call.lastPacket, length_payload]
      omega

end Segments

/-- Delivery by the network: each packet sent arrives once, the first one first, the one with the end marker last. -/
structure Delivery (sent delivered : List Packet) : Prop where
  once : delivered.Perm sent
  first : delivered.head? = sent.head?
  last : ∃ pkt, delivered.getLast? = some pkt ∧ eom pkt.flags = true

/-- The job runs on frames that carry the packets delivered. -/
structure Job.Serves (job : Job) (delivered : List Packet) : Prop where
  count : job.count = delivered.length
  frame : ∀ (i : Nat) (pkt : Packet), delivered[i]? = some pkt → Carries (job.frame i) pkt

section Main

variable {call : Call} {job : Job} {delivered : List Packet}

/-- The packets delivered are segments of the message. -/
def Segmented (call : Call) (delivered : List Packet) : Prop := ∀ pkt ∈ delivered, ∃ off, Segment call pkt off

/-- What each host address is to hold. -/
def target (call : Call) (job : Job) : Memory := fun a =>
  (call.buf[a - (job.hostAddr.toNat + coreCount * pageSize)]?).getD 0

/-- The host region holds the pages of the HPUs and the message. -/
def Job.Fits (job : Job) (sz : Nat) : Prop := job.hostAddr.toNat + coreCount * pageSize + sz ≤ 2 ^ 64

theorem dst_eq {i off j : Nat} {pkt : Packet} (hFits : job.Fits call.sz) (hLt : call.sz < 2 ^ 32)
    (hCarries : Carries (job.frame i) pkt) (hSegment : Segment call pkt off) (hj : j < pkt.payload.length) :
    job.dst i j = job.hostAddr.toNat + coreCount * pageSize + (off + j) := by
  have hFit : job.hostAddr.toNat + coreCount * pageSize + call.sz ≤ 2 ^ 64 := hFits
  have hIn := hSegment.fits
  have hOff : ((BitVec.ofNat 32 off).setWidth 64).toNat = off := by
    rw [BitVec.toNat_setWidth, BitVec.toNat_ofNat, Nat.mod_eq_of_lt (by omega), Nat.mod_eq_of_lt (by omega)]
  have hPages : (BitVec.ofNat 64 (coreCount * pageSize)).toNat = coreCount * pageSize := rfl
  have hStart : (hostStartAddr job.hostAddr).toNat = job.hostAddr.toNat + coreCount * pageSize := by
    rw [hostStartAddr, BitVec.toNat_add_of_lt (by rw [hPages]; omega), hPages]
  rw [Job.dst, hCarries.pktOffOf, hSegment.pktOff, BitVec.toNat_add_of_lt (by rw [hStart, hOff]; omega), hStart,
    hOff, Nat.add_assoc]

theorem segment_at (hServes : job.Serves delivered) (hSegmented : Segmented call delivered) {i : Nat}
    (hi : i < job.count) :
    ∃ pkt off, delivered[i]? = some pkt ∧ Carries (job.frame i) pkt ∧ Segment call pkt off ∧
      job.len i = pkt.payload.length := by
  have hLt : i < delivered.length := hServes.count ▸ hi
  have hGet := List.getElem?_eq_getElem hLt
  have hCarries := hServes.frame i _ hGet
  obtain ⟨off, hSegment⟩ := hSegmented _ (List.getElem_mem hLt)
  exact ⟨_, off, hGet, hCarries, hSegment, hCarries.slmpPayloadLen hSegment.small⟩

theorem consistent (hFits : job.Fits call.sz) (hLt : call.sz < 2 ^ 32) (hServes : job.Serves delivered)
    (hSegmented : Segmented call delivered) : job.Consistent (target call job) := by
  refine ⟨?_, ?_⟩
  · intro i hi j hj
    obtain ⟨pkt, off, -, hCarries, hSegment, hLen⟩ := segment_at hServes hSegmented hi
    rw [hLen] at hj
    have hPayload : pkt.payload[j]? = some pkt.payload[j] := List.getElem?_eq_getElem hj
    rw [hCarries.payload j _ hPayload, dst_eq hFits hLt hCarries hSegment hj, target, Nat.add_sub_cancel_left,
      hSegment.bytes j _ hPayload, Option.getD_some]
  · intro i hi j hj
    obtain ⟨pkt, off, -, hCarries, hSegment, hLen⟩ := segment_at hServes hSegmented hi
    rw [hLen] at hj
    have hFit : job.hostAddr.toNat + coreCount * pageSize + call.sz ≤ 2 ^ 64 := hFits
    have hPage : coreCount * pageSize = 65536 := by decide
    have hHpu : (job.hpu : Nat) * pageSize ≤ 15 * 4096 := Nat.mul_le_mul_right _ (Nat.le_of_lt_succ job.hpu.isLt)
    have hIn := hSegment.fits
    rw [dst_eq hFits hLt hCarries hSegment hj, hostAddrHpu, hPage]
    rw [hPage] at hFit
    simp only [BitVec.toNat_add, BitVec.toNat_ofNat]
    omega

theorem Filling.whole {s : HandlerState} (hFits : job.Fits call.sz) (hLt : call.sz < 2 ^ 32)
    (hServes : job.Serves delivered)
    (hCovered : ∀ k < call.sz, ∃ pkt ∈ delivered, ∃ off, Segment call pkt off ∧
      off ≤ k ∧ k < off + pkt.payload.length)
    (h : Filling job (target call job) s) (hFinished : ∀ i < job.count, (s.task i).finished = true) {k : Nat}
    (hk : k < call.sz) : some (s.host (job.hostAddr.toNat + coreCount * pageSize + k)) = call.buf[k]? := by
  obtain ⟨pkt, hMem, off, hSegment, hLow, hHigh⟩ := hCovered k hk
  obtain ⟨i, hi, hGet⟩ := List.mem_iff_getElem.mp hMem
  have hCount : i < job.count := hServes.count ▸ hi
  have hCarries : Carries (job.frame i) pkt := hServes.frame i pkt (hGet ▸ List.getElem?_eq_getElem hi)
  have hDone := hFinished i hCount
  obtain ⟨⟨hPc, hPending⟩, -⟩ : ((s.task i).pc = .returned ∧ (s.task i).dma.pending = []) ∧
      (s.task i).sending = false := by
    simpa [PayloadTask.finished] using hDone
  have hj : k - off < pkt.payload.length := by omega
  have hLen : job.len i = pkt.payload.length := hCarries.slmpPayloadLen hSegment.small
  have hHost := h.host i (by simp [hPc]) (k - off) (hLen ▸ hj) (by simp [hPending])
  rw [dst_eq hFits hLt hCarries hSegment hj, Nat.add_sub_cancel' hLow] at hHost
  rw [hHost, target, Nat.add_sub_cancel_left, List.getElem?_eq_getElem hk, Option.getD_some]

/-- No handler finds fault with a message that was delivered. -/
theorem unreported (hAlign : 1 ≤ call.sock.align ∧ call.sock.align ≤ slmpPayloadSize)
    {actions : List (Action call)} {sender : State call} (hSend : run step (State.init call) actions = some sender)
    (hDelivery : Delivery sender.sent delivered) (hServes : job.Serves delivered) {host : Memory}
    {schedule : List HandlerAction} {s : HandlerState}
    (hRun : run (handlerStep job) (HandlerState.init job host) schedule = some s) : s.printed = [] := by
  have hPos := call.sock.payloadSize_pos hAlign.1 hAlign.2
  obtain ⟨last, hGetLast, hEom⟩ := hDelivery.last
  obtain ⟨-, hHead⟩ :=
    complete_run hPos hSend ⟨last, hDelivery.once.subset (List.mem_of_getLast? hGetLast), hEom⟩
  have hFirst : Carries (job.frame 0) call.firstPacket := by
    apply hServes.frame
    rw [← List.head?_eq_getElem?, hDelivery.first]
    exact hHead
  have hLast : Carries (job.frame (job.count - 1)) last := by
    apply hServes.frame
    rw [hServes.count, ← List.getLast?_eq_getElem?]
    exact hGetLast
  have hSyn : syn call.firstFlags = true := by
    unfold Call.firstFlags
    split <;> decide
  refine printed_run ?_ (hLast.flagsOf.symm ▸ hEom) hRun
  rw [slmpHh, hFirst.pktOffOf, hFirst.flagsOf]
  simp [Call.firstPacket, Call.packet, hSyn]

theorem reassembled (hAlign : 1 ≤ call.sock.align ∧ call.sock.align ≤ slmpPayloadSize)
    (hLt : call.sz < 2 ^ 32) {actions : List (Action call)} {sender : State call}
    (hSend : run step (State.init call) actions = some sender) (hDelivery : Delivery sender.sent delivered)
    (hServes : job.Serves delivered) (hFits : job.Fits call.sz) {host : Memory} {schedule : List HandlerAction}
    {s : HandlerState} (hRun : run (handlerStep job) (HandlerState.init job host) schedule = some s) {flag : Flag}
    (hNotified : s.notified = some flag) :
    flag.len.toNat = call.sz ∧ loadLE 8 s.host (hostAddrHpu job.hostAddr job.hpu).toNat = flag.data ∧
      ∀ k < call.sz, some (s.host (job.hostAddr.toNat + coreCount * pageSize + k)) = call.buf[k]? := by
  have hPos := call.sock.payloadSize_pos hAlign.1 hAlign.2
  obtain ⟨last, hGetLast, hEom⟩ := hDelivery.last
  have hLast : last ∈ delivered := List.mem_of_getLast? hGetLast
  obtain ⟨hSent, -⟩ := complete_run hPos hSend ⟨last, hDelivery.once.subset hLast, hEom⟩
  have hPerm := hDelivery.once.trans hSent
  have hSegmented : Segmented call delivered := by
    intro pkt hMem
    obtain ⟨off, hSegment, -⟩ := segment_of_mem hPos (hPerm.subset hMem)
    exact ⟨off, hSegment⟩
  have hJob := consistent hFits hLt hServes hSegmented
  have hFilling : Filling job (target call job) s :=
    run_invariant _ (fun _ _ _ h hStep => h.step hJob hStep) (Filling.init job _ host) hRun
  obtain ⟨hFinished, -, hLen, hFlag⟩ := hFilling.notified flag hNotified
  refine ⟨?_, hFlag.loadLE, ?_⟩
  · -- the completion handler runs on the packet with the end marker
    have hIdx : delivered[job.count - 1]? = some last := by
      rw [hServes.count, ← List.getLast?_eq_getElem?]
      exact hGetLast
    have hCarries := hServes.frame _ _ hIdx
    obtain ⟨off, hSegment, hEnd⟩ := segment_of_mem hPos (hPerm.subset hLast)
    have hPayload := hCarries.slmpPayloadLen hSegment.small
    rw [hLen, totalLen, hCarries.pktOffOf, hSegment.pktOff, BitVec.toNat_add, BitVec.toNat_ofNat, hPayload,
      ← hEnd hEom]
    have hEnd := hEnd hEom
    omega
  · intro k hk
    refine hFilling.whole hFits hLt hServes ?_ hFinished hk
    intro k hk
    obtain ⟨pkt, hMem, hSegment⟩ := covered hPos hk
    exact ⟨pkt, hPerm.symm.subset hMem, hSegment⟩

end Main

def plainJob (delivered : List Packet) : Job where
  hostAddr := 4096
  count := delivered.length
  frame i := plainFrame ((delivered[i]?).getD ⟨0, 0, 0, []⟩)
  hpu := 3
  dmaIdx := 9

theorem serves_plainJob (delivered : List Packet) : (plainJob delivered).Serves delivered where
  count := rfl
  frame i pkt hPkt := by
    simp only [plainJob, hPkt, Option.getD_some]
    exact carries_plainFrame pkt

def twoPackets : Call := ⟨⟨1, 732, 1, Nat.one_pos⟩, 7, List.replicate 733 5⟩

def twoPacketsJob : Job := plainJob [twoPackets.firstPacket, twoPackets.lastPacket]

open HandlerAction in
/-- The last payload handler starts first, and the first packet is written after its header has changed. -/
def twoPacketsSchedule : List HandlerAction :=
  [header, start 1, start 0, copy 1 0] ++ List.replicate 12 (store 0) ++ [sendPacket 0] ++
    (List.range 732).map (copy 0) ++ [packetSent 0] ++ List.replicate 12 (store 1) ++
    [sendPacket 1, packetSent 1, complete]

theorem reassembled_twoPackets :
    ∃ s flag, run (handlerStep twoPacketsJob) (HandlerState.init twoPacketsJob fun _ => 0) twoPacketsSchedule =
      some s ∧
      s.notified = some flag ∧ flag.len.toNat = 733 ∧
      ∀ k < 733, some (s.host (4096 + coreCount * pageSize + k)) = twoPackets.buf[k]? := by
  have hSz : twoPackets.sz = 733 := List.length_replicate
  obtain ⟨sender, hSend, hSent⟩ := Option.map_eq_some_iff.mp (show
    (run step (State.init twoPackets) [.syn true, .synAck 1, .join, .last [] true]).map (·.sent) =
      some [twoPackets.firstPacket, twoPackets.lastPacket] by decide +kernel)
  obtain ⟨s, hRun, hNotified⟩ := Option.bind_eq_some_iff.mp (show
    (run (handlerStep twoPacketsJob) (HandlerState.init twoPacketsJob fun _ => 0) twoPacketsSchedule).bind
      (·.notified) = some ⟨10, 733, 3⟩ by decide +kernel)
  have hDelivery : Delivery sender.sent [twoPackets.firstPacket, twoPackets.lastPacket] := by
    rw [hSent]
    exact ⟨List.Perm.refl _, rfl, twoPackets.lastPacket, rfl, by decide⟩
  have hFits : twoPacketsJob.Fits twoPackets.sz := by
    rw [hSz, Job.Fits]
    decide
  obtain ⟨hLen, -, hHost⟩ := reassembled (by decide) (by rw [hSz]; decide) hSend hDelivery
    (serves_plainJob _) hFits hRun hNotified
  rw [hSz] at hLen hHost
  exact ⟨s, _, hRun, hNotified, hLen, hHost⟩

end FPsPIN.Slmp
