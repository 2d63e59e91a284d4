import FPsPIN.Lib.Headers
import FPsPIN.Slmp.Acks
import FPsPIN.Slmp.Checksum

/-!
# The way of an acknowledgement

What slmp_ph sends back: its copy of the packet after the stores of
prepare_hdrs_ack, up to the end of the SLMP header. The stores hit fields of
fixed offsets, so they make a frame only for an IP header of 20 bytes. The
checksum is computed over the header with a cleared checksum field, and the
sum over the stored header is then a multiple of 65535 that is not zero, since
the length word is not.
-/

namespace FPsPIN.Slmp

open FPsPIN.Bytes FPsPIN.Headers FPsPIN.Trace

def msgIdOf (l1 : Memory) : BitVec 32 := bswap32 (loadLE 4 l1 (slmpHdrAt + 2))

/-- An acknowledgement of a packet, in the terms of its receiver. -/
structure AckOf (frame ack : Memory) : Prop where
  macs : macDest ack = macSource frame ∧ macSource ack = macDest frame
  addresses : ipDest ack = ipSource frame ∧ ipSource ack = ipDest frame
  ports : udpDstPort ack = udpSrcPort frame ∧ udpSrcPort ack = udpDstPort frame
  ihl : ihl ack = 5
  checksum : OnesComplement.sum (ipWords ack) = 0xffff
  udpLength : (udpLength ack).toNat = 8 + slmpHdrSize
  ipLength : (ipLength ack).toNat = 20 + 8 + slmpHdrSize
  msgId : msgIdOf ack = msgIdOf frame
  pktOff : pktOffOf ack = pktOffOf frame
  accepted : drainAck 1 [.datagram (udpPayload ack)] = (1, [])

section Stores

variable {m : Memory} {stores : List Store}

def Apart (st st' : Store) : Prop := st.1 + st.2.length ≤ st'.1 ∨ st'.1 + st'.2.length ≤ st.1

theorem applyStores_of_outside {k : Nat} (h : ∀ st ∈ stores, k < st.1 ∨ st.1 + st.2.length ≤ k) :
    applyStores m stores k = m k := by
  induction stores generalizing m with
  | nil => rfl
  | cons st stores ih =>
    change applyStores (place m st.1 st.2) stores k = m k
    rw [ih fun st' hMem => h st' (List.mem_cons_of_mem _ hMem)]
    exact place_of_outside (h st List.mem_cons_self)

theorem Holds.applyStores {st : Store} (h : Holds m st.1 st.2) (hApart : ∀ st' ∈ stores, Apart st st') :
    Holds (applyStores m stores) st.1 st.2 := by
  intro k b hb
  have hk := (List.getElem?_eq_some_iff.mp hb).1
  rw [applyStores_of_outside fun st' hMem => ?_]
  · exact h k b hb
  · have hRanges := hApart st' hMem
    unfold Apart at hRanges
    omega

theorem holds_applyStores (hApart : stores.Pairwise Apart) {st : Store} (hMem : st ∈ stores) :
    Holds (applyStores m stores) st.1 st.2 := by
  induction stores generalizing m with
  | nil => cases hMem
  | cons first rest ih =>
    obtain ⟨hFirst, hRest⟩ := List.pairwise_cons.mp hApart
    change Holds (Slmp.applyStores (place m first.1 first.2) rest) st.1 st.2
    obtain rfl | hMem := List.mem_cons.mp hMem
    · exact Holds.applyStores (holds_place _ _ _) hFirst
    · exact ih hRest hMem

theorem Holds.byte {m' : Memory} {a a' n k : Nat} (h : Holds m a (readBytes m' a' n)) (hk : k < n) :
    m (a + k) = m' (a' + k) :=
  h k _ (by simp [readBytes, hk])

end Stores

section Header

variable (frame : Memory)

/-- The copy of the packet after prepare_hdrs_ack. -/
def ackFrame : Memory := applyStores frame (prepareHdrsAck frame mkAck)

/-- The copy of the packet when the checksum is computed. -/
def clearedFrame : Memory := applyStores frame (addressStores frame)

/-- The stores after the checksum was cleared. -/
def finalStores : List Store :=
  [(24, bytesLE 2 (ipChecksum (clearedFrame frame) 14 20)), (udpLengthAt, bytesLE 2 (bswap16 18)),
    (40, bytesLE 2 0), (slmpHdrAt, bytesLE 2 (bswap16 mkAck))]

theorem ackFrame_eq : ackFrame frame = applyStores (clearedFrame frame) (finalStores frame) := List.foldl_append

theorem holds_cleared : ∀ st ∈ addressStores frame, Holds (clearedFrame frame) st.1 st.2 := by
  have hApart : (addressStores frame).Pairwise Apart := by
    simp [addressStores, Apart]
  exact fun st hMem => holds_applyStores hApart hMem

theorem holds_final : ∀ st ∈ finalStores frame, Holds (ackFrame frame) st.1 st.2 := by
  have hApart : (finalStores frame).Pairwise Apart := by
    simp [finalStores, Apart, udpLengthAt, slmpHdrAt]
  intro st hMem
  rw [ackFrame_eq]
  exact holds_applyStores hApart hMem

theorem holds_address : ∀ st ∈ addressStores frame, st.1 ≠ 24 → Holds (ackFrame frame) st.1 st.2 := by
  intro st hMem hNe
  rw [ackFrame_eq]
  refine Holds.applyStores (holds_cleared frame st hMem) ?_
  simp only [addressStores, List.mem_cons, List.not_mem_nil, or_false] at hMem
  rcases hMem with rfl | rfl | rfl | rfl | rfl | rfl | rfl | rfl
  case inr.inr.inr.inr.inr.inr.inr => exact absurd rfl hNe
  all_goals simp [finalStores, Apart, udpLengthAt, slmpHdrAt]

variable {frame}

theorem ackFrame_kept {k : Nat} (h : 12 ≤ k ∧ k < 16 ∨ 44 ≤ k) : ackFrame frame k = frame k := by
  apply applyStores_of_outside
  simp [prepareHdrsAck, addressStores, udpLengthAt, slmpHdrAt]
  omega

theorem loadLE_kept {a : Nat} (h : 44 ≤ a) : loadLE 4 (ackFrame frame) a = loadLE 4 frame a := by
  rw [← bswap32_loadBE, ← bswap32_loadBE]
  exact congrArg bswap32 (loadBE_congr fun k _ => ackFrame_kept (.inr (by omega)))

theorem ackFrame_cleared {k : Nat} (h : k < 24 ∨ 26 ≤ k ∧ k < 38) : ackFrame frame k = clearedFrame frame k := by
  rw [ackFrame_eq]
  apply applyStores_of_outside
  simp [finalStores, udpLengthAt, slmpHdrAt]
  omega

end Header

section Frame

variable {frame : Memory}

theorem loadBE_ackFrame {a : Nat} (h : a + 2 ≤ 24 ∨ 26 ≤ a ∧ a + 2 ≤ 38) :
    loadBE 2 (ackFrame frame) a = loadBE 2 (clearedFrame frame) a :=
  loadBE_congr fun k hk => ackFrame_cleared (by omega)

theorem ihl_ackFrame (hIhl : ihl frame = 5) : ihl (ackFrame frame) = 5 := by
  rw [ihl, ackFrame_kept (by decide)]
  exact hIhl

theorem ipLength_ackFrame : ipLength (ackFrame frame) = 38 :=
  Holds.loadBE (holds_address frame (16, bytesLE 2 (bswap16 38)) (by simp [addressStores]) (by decide))

theorem checksum_ackFrame (hIhl : ihl frame = 5) : OnesComplement.sum (ipWords (ackFrame frame)) = 0xffff := by
  have hStored : loadBE 2 (ackFrame frame) 24 = bswap16 (ipChecksum (clearedFrame frame) 14 20) := by
    apply Holds.loadBE
    rw [bswap16_bswap16]
    exact holds_final frame (24, _) List.mem_cons_self
  have hCleared : loadBE 2 (clearedFrame frame) 24 = 0 := by
    apply Holds.loadBE
    exact holds_cleared frame (24, bytesLE 2 0) (by simp [addressStores])
  have hSame : ∀ k < 10, k ≠ 5 → loadBE 2 (ackFrame frame) (14 + 2 * k) =
    loadBE 2 (clearedFrame frame) (14 + 2 * k) :=
    fun k hk hNe => loadBE_ackFrame (by omega)
  have hWords : ipWords (ackFrame frame) = netWords (ackFrame frame) 14 10 := by
    rw [ipWords, ihl_ackFrame hIhl]
    rfl
  rw [OnesComplement.sum_eq_max_iff, hWords]
  constructor
  · -- the length word is one of them
    have hMem : loadBE 2 (ackFrame frame) 16 ∈ netWords (ackFrame frame) 14 10 :=
      List.mem_map.mpr ⟨1, by decide, rfl⟩
    have hLe := OnesComplement.toNat_le_total hMem
    have hLength : (loadBE 2 (ackFrame frame) 16).toNat = 38 := congrArg BitVec.toNat ipLength_ackFrame
    omega
  · exact total_completed (by decide : 5 < 10) hSame hCleared hStored

theorem loadBE_swapped {n a a' : Nat} (hMem : (a, readBytes frame a' n) ∈ addressStores frame) (hNe : a ≠ 24) :
    loadBE n (ackFrame frame) a = loadBE n frame a' :=
  loadBE_congr fun _ hk => Holds.byte (holds_address frame _ hMem hNe) hk

theorem udpAt_ackFrame (hIhl : ihl frame = 5) : udpAt (ackFrame frame) = 34 := udpAt_of_ihl (ihl_ackFrame hIhl)

theorem udpLength_ackFrame (hIhl : ihl frame = 5) : udpLength (ackFrame frame) = 18 := by
  rw [udpLength, udpAt_ackFrame hIhl]
  exact Holds.loadBE (holds_final frame (udpLengthAt, bytesLE 2 (bswap16 18)) (by simp [finalStores]))

theorem udpPayload_ackFrame (hIhl : ihl frame = 5) :
    udpPayload (ackFrame frame) = readBytes (ackFrame frame) slmpHdrAt slmpHdrSize := by
  rw [udpPayload, udpLength_ackFrame hIhl, udpAt_ackFrame hIhl]
  rfl

theorem headerFlags_readBytes (m : Memory) {a n : Nat} (hLe : 2 ≤ n) :
    headerFlags (readBytes m a n) = loadBE 2 m a := by
  rw [headerFlags, bswap16_loadLE]
  apply loadBE_congr
  intro k hk
  have hLt : k < n := by omega
  simp [readBytes, hLt]

theorem drainAck_ackFrame (hIhl : ihl frame = 5) :
    drainAck 1 [.datagram (udpPayload (ackFrame frame))] = (1, []) := by
  have hFlags : headerFlags (udpPayload (ackFrame frame)) = mkAck := by
    rw [udpPayload_ackFrame hIhl, headerFlags_readBytes _ (by decide)]
    exact Holds.loadBE (holds_final frame (slmpHdrAt, bytesLE 2 (bswap16 mkAck)) (by simp [finalStores]))
  have hLength : (udpPayload (ackFrame frame)).length = slmpHdrSize := by
    rw [udpPayload_ackFrame hIhl, length_readBytes]
  have hAck : ack mkAck = true := by decide
  simp [drainAck, drainAckFrom, hLength, hFlags, hAck]

theorem ackOf_ackFrame (hIhl : ihl frame = 5) : AckOf frame (ackFrame frame) where
  macs := ⟨loadBE_swapped (by simp [addressStores]) (by decide),
    loadBE_swapped (by simp [addressStores]) (by decide)⟩
  addresses := ⟨loadBE_swapped (by simp [addressStores]) (by decide),
    loadBE_swapped (by simp [addressStores]) (by decide)⟩
  ports := by
    rw [udpDstPort, udpSrcPort, udpDstPort, udpSrcPort, udpAt_ackFrame hIhl, udpAt_of_ihl hIhl]
    exact ⟨loadBE_swapped (by simp [addressStores]) (by decide),
      loadBE_swapped (by simp [addressStores]) (by decide)⟩
  ihl := ihl_ackFrame hIhl
  checksum := checksum_ackFrame hIhl
  udpLength := congrArg BitVec.toNat (udpLength_ackFrame hIhl)
  ipLength := congrArg BitVec.toNat ipLength_ackFrame
  msgId := by rw [msgIdOf, msgIdOf, loadLE_kept (by decide)]
  pktOff := by rw [pktOffOf, pktOffOf, loadLE_kept (by decide)]
  accepted := drainAck_ackFrame hIhl

end Frame

section Runs

variable {job : Job} {i : Nat} {task task' : PayloadTask}

/-- The copy of the packet on its way to an acknowledgement. -/
structure Answering (job : Job) (i : Nat) (task : PayloadTask) : Prop where
  waiting : task.pc = .waiting → task.l1 = job.frame i
  acking : ∀ stores, task.pc = .acking stores → applyStores task.l1 stores = ackFrame (job.frame i)
  idle : task.pc ≠ .returned → task.sending = false
  sending : task.sending = true → task.l1 = ackFrame (job.frame i)

theorem Answering.init (job : Job) (host : Memory) (i : Nat) :
    Answering job i ((HandlerState.init job host).task i) where
  waiting _ := rfl
  acking _ h := by cases h
  idle _ := rfl
  sending h := by cases h

theorem Answering.step (h : Answering job i task) (hStep : TaskStep job i task task') :
    Answering job i task' := by
  cases hStep with
  | other => exact h
  | start _ hPc =>
    have hIdle : task.sending = false := h.idle (by simp [hPc])
    refine ⟨fun hWait => ?_, fun stores hStores => ?_, fun _ => hIdle, fun hSending => ?_⟩
    · simp only [slmpPh] at hWait
      split at hWait <;> cases hWait
    · simp only [slmpPh] at hStores ⊢
      split at hStores <;> cases hStores
      rw [h.waiting hPc]
      rfl
    · exact absurd (hIdle.symm.trans hSending) (by decide)
  | store hPc =>
    have hIdle : task.sending = false := h.idle (by simp [hPc])
    refine ⟨nofun, fun stores hStores => ?_, fun _ => hIdle, fun hSending => ?_⟩
    · cases hStores
      exact h.acking _ hPc
    · exact absurd (hIdle.symm.trans hSending) (by decide)
  | sendPacket hPc => exact ⟨nofun, nofun, fun hPc' => absurd rfl hPc', fun _ => h.acking [] hPc⟩
  | copied j => exact ⟨h.waiting, h.acking, h.idle, h.sending⟩
  | packetSent => exact ⟨h.waiting, h.acking, fun _ => rfl, nofun⟩

end Runs

/-- What a payload handler has the NIC send is an acknowledgement of its packet. -/
theorem sent_ackOf (job : Job) {host : Memory} {actions : List HandlerAction} {s : HandlerState} {i : Nat}
    (hRun : run (handlerStep job) (HandlerState.init job host) actions = some s)
    (hSending : (s.task i).sending = true) (hIhl : ihl (job.frame i) = 5) :
    AckOf (job.frame i) (s.task i).l1 := by
  have hTask := task_invariant (Answering job) (fun _ _ _ h hStep => h.step hStep)
    (Answering.init job host) hRun i
  rw [hTask.sending hSending]
  exact ackOf_ackFrame hIhl

def synFrame : Memory := fun k => if k = 14 then 0x45 else if k = 42 then 0x40 else BitVec.ofNat 8 k

def synJob : Job := ⟨0x100000000, 1, fun _ => synFrame, Fin.last 15, 0⟩

theorem sent_ackOf_synJob :
    ∃ s, run (handlerStep synJob) (HandlerState.init synJob fun _ => 0)
        ([.header, .start 0] ++ List.replicate 12 (.store 0) ++ [.sendPacket 0]) = some s ∧
      (s.task 0).sending = true ∧ AckOf synFrame (s.task 0).l1 := by
  have hEnd : (run (handlerStep synJob) (HandlerState.init synJob fun _ => 0)
      ([.header, .start 0] ++ List.replicate 12 (.store 0) ++ [.sendPacket 0])).map
        (fun s => (s.task 0).sending) =
        some true := by
    decide +kernel
  obtain ⟨s, hRun, hSending⟩ := Option.map_eq_some_iff.mp hEnd
  exact ⟨s, hRun, hSending, sent_ackOf synJob hRun hSending (by decide)⟩

end FPsPIN.Slmp
