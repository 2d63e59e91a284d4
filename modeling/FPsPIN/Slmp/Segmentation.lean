import Mathlib.Order.CompletePartialOrder
import Mathlib.Order.Interval.Set.Basic
import FPsPIN.Slmp.Reassembly

/-!
# Segmentation of a message

What the packets of a call look like when no send fails. The first packet, the
packets of the loop and the last one come from three places with different
bounds; their offsets are the multiples of the payload size below the end of
the message, each once. Waiting for the acknowledgement of the first packet
belongs to its sending: if it times out, the call ends without the others.
-/

namespace FPsPIN.Slmp

open FPsPIN.Bytes FPsPIN.Trace

variable {call : Call}

/-- Places of the payload in the message. -/
def Packet.range (pkt : Packet) : Set Nat := Set.Ico pkt.pktOff.toNat (pkt.pktOff.toNat + pkt.payload.length)

/-- The packets cut the message up, in an order that starts with its start and ends with its end. -/
structure Segmentation (call : Call) (sent : List Packet) : Prop where
  covers : ∀ k < call.sz, ∃ pkt ∈ sent, k ∈ pkt.range
  disjoint : sent.Pairwise fun pkt pkt' => Disjoint pkt.range pkt'.range
  within : ∀ pkt ∈ sent, pkt.range ⊆ Set.Iio call.sz
  content : ∀ pkt ∈ sent, pkt.payload = (call.buf.drop pkt.pktOff.toNat).take pkt.payload.length
  nonempty : 0 < call.sz → ∀ pkt ∈ sent, pkt.payload ≠ []
  empty : call.sz = 0 → ∃ pkt, sent = [pkt] ∧ pkt.payload = []
  small : ∀ pkt ∈ sent, pkt.payload.length ≤ slmpPayloadSize
  aligned : ∀ pkt ∈ sent, call.sock.align ∣ pkt.pktOff.toNat
  eom : ∃ front pkt, sent = front ++ [pkt] ∧ eom pkt.flags = true ∧
    pkt.pktOff.toNat + pkt.payload.length = call.sz ∧ ∀ other ∈ front, Slmp.eom other.flags = false
  syn : ∃ pkt rest, sent = pkt :: rest ∧ pkt.pktOff = 0 ∧ syn pkt.flags = true
  middle : ∀ first mid last, sent = first :: (mid ++ [last]) →
    ∀ pkt ∈ mid, (Slmp.syn pkt.flags = true ↔ 0 < call.sock.wndSz)

section Failures

variable {s s' : State call}

def sendFails (s : State call) : Action call → Bool
  | .syn sendto => (sendSingle call.firstPacket true 1 [] sendto).ret != 0
  | .synAck acked => acked == 0
  | .send t reclaimed sendto =>
    match (s.thread t).cur with
    | none => false
    | some cur =>
      (sendSingle (call.loopPacket cur) (call.loopExpectAck cur) (s.thread t).window reclaimed sendto).ret != 0
  | .last reclaimed sendto =>
    decide (call.curAfter < call.sz) && (sendSingle call.lastPacket true s.windowLeft reclaimed sendto).ret != 0
  | _ => false

theorem sendSingle_out {pkt : Packet} {expectAck : Bool} {window : Int} {reclaimed : List Int} {sendto : Bool}
    (h : (sendSingle pkt expectAck window reclaimed sendto).ret = 0) :
    (sendSingle pkt expectAck window reclaimed sendto).out = [pkt] := by
  obtain ⟨-, hOut⟩ | ⟨hRet, -⟩ := sendSingle_cases pkt expectAck window reclaimed sendto
  · exact hOut
  · rw [hRet] at h
    cases h

/-- The packets of the whole message, those of the loop in some order. -/
def Whole (s : State call) : Prop :=
  ∃ ran, List.Perm ran call.loopOffsets ∧
    s.sent = call.firstPacket ::
      (ran.map call.loopPacket ++ if call.curAfter < call.sz then [call.lastPacket] else [])

/-- A call in which no send has failed. -/
structure Unfailed (s : State call) : Prop where
  sending : Sending s
  running : s.exitFlag = false
  ended : ∀ ret, s.phase = .drain ret ∨ s.phase = .returned ret → Whole s

theorem unfailed_init (call : Call) : Unfailed (State.init call) where
  sending := sending_init call
  running := rfl
  ended _ h := by
    obtain h | h := h <;> cases h

theorem Returns.sum_eq_zero {n : Nat} {thread : Fin n → Thread} {exitFlag : Bool} (h : Returns thread exitFlag)
    (hExit : exitFlag = false) : ∑ t, (thread t).ret = 0 := by
  apply Finset.sum_eq_zero
  intro t _
  by_contra hNe
  exact absurd ((h.stopped t hNe).1.symm.trans hExit) (by decide)

theorem whole_sendLast (h : SendingIn s .last) {reclaimed : List Int} {sendto : Bool}
    (hSends : sendFails s (.last reclaimed sendto) = false) : Whole (s.sendLast reclaimed sendto) := by
  obtain ⟨ran, hSent, hRan⟩ := h
  refine ⟨ran, hRan, ?_⟩
  by_cases hLast : call.curAfter < call.sz
  · have hRet : (sendSingle call.lastPacket true s.windowLeft reclaimed sendto).ret = 0 := by
      simpa [sendFails, hLast] using hSends
    simp [State.sendLast, hLast, sendSingle_out hRet, hSent]
  · simp [State.sendLast, hLast, hSent]

theorem unfailed_step (hPos : 0 < call.sock.payloadSize) {a : Action call} (h : Unfailed s)
    (hSends : sendFails s a = false) (hStep : step s a = some s') : Unfailed s' := by
  have hSending := sending_step hPos h.sending hStep
  cases step_cases hStep with
  | syn sendto hPhase =>
    have hRet : (sendSingle call.firstPacket true 1 [] sendto).ret = 0 := by simpa [sendFails] using hSends
    refine ⟨hSending, h.running, fun ret hEnded => ?_⟩
    simp [State.sendSyn, hRet] at hEnded
  | synAck acked hPhase _ =>
    have hAcked : acked ≠ 0 := by simpa [sendFails] using hSends
    refine ⟨hSending, h.running, fun ret hEnded => ?_⟩
    simp [hAcked] at hEnded
  | enter t cur hPhase hMem hIdle =>
    refine ⟨hSending, h.running, fun ret hEnded => ?_⟩
    simp [State.enter, hPhase] at hEnded
  | send t cur reclaimed sendto hPhase hCur _ =>
    have hRet : (sendSingle (call.loopPacket cur) (call.loopExpectAck cur) (s.thread t).window reclaimed
        sendto).ret = 0 := by simpa [sendFails, hCur] using hSends
    refine ⟨hSending, ?_, fun ret hEnded => ?_⟩
    · simp [State.sendLoop, h.running, hRet]
    · simp [State.sendLoop, hPhase] at hEnded
  | join hPhase hJoin =>
    obtain ⟨ran, lost, -, hLoop⟩ : SendingIn s .loop := hPhase ▸ h.sending
    have hRet : s.retSum = 0 := hLoop.returns.sum_eq_zero h.running
    refine ⟨hSending, h.running, fun ret hEnded => ?_⟩
    simp [State.join, hRet] at hEnded
  | last reclaimed sendto hPhase _ =>
    have hExit : (s.sendLast reclaimed sendto).exitFlag = s.exitFlag := by
      rw [State.sendLast]
      split <;> rfl
    have hIn : SendingIn s .last := hPhase ▸ h.sending
    exact ⟨hSending, hExit.trans h.running, fun _ _ => whole_sendLast hIn hSends⟩
  | drain drained ret hPhase _ => exact ⟨hSending, h.running, fun _ _ => h.ended ret (.inl hPhase)⟩

theorem Whole.perm (h : Whole s) : s.sent.Perm call.packets := by
  obtain ⟨ran, hRan, hSent⟩ := h
  rw [hSent]
  exact ((hRan.map _).append_right _).cons _

theorem packets_of_unfailed (h : Unfailed s) : ∀ pkt ∈ s.sent, pkt ∈ call.packets := by
  have hLoop : ∀ ran : List Nat, (∀ cur ∈ ran, cur ∈ call.loopOffsets) →
      ∀ pkt ∈ call.firstPacket :: ran.map call.loopPacket, pkt ∈ call.packets := by
    intro ran hRan pkt hMem
    rw [List.mem_cons, List.mem_map] at hMem
    obtain rfl | ⟨cur, hCur, rfl⟩ := hMem
    · exact List.mem_cons_self
    · exact List.mem_cons_of_mem _ (List.mem_append_left _ (List.mem_map_of_mem (hRan cur hCur)))
  have hSending := h.sending
  unfold Sending at hSending
  cases hPhase : s.phase <;> rw [hPhase] at hSending
  case syn =>
    rw [hSending.1]
    exact fun pkt hMem => absurd hMem List.not_mem_nil
  case synAck =>
    rw [hSending.1]
    exact hLoop [] fun cur hCur => absurd hCur List.not_mem_nil
  case loop =>
    obtain ⟨ran, lost, hSent, hLooping⟩ := hSending
    rw [hSent]
    exact hLoop ran fun cur => hLooping.subset
  case last =>
    obtain ⟨ran, hSent, hRan⟩ := hSending
    rw [hSent]
    exact hLoop ran fun cur hCur => hRan.subset hCur
  case drain ret => exact fun pkt hMem => (h.ended ret (.inl hPhase)).perm.subset hMem
  case returned ret => exact fun pkt hMem => (h.ended ret (.inr hPhase)).perm.subset hMem

theorem mem_loopOffsets_of_cur (h : SendingIn s .loop) {t : Fin call.sock.numThreads} {cur : Nat}
    (hCur : (s.thread t).cur = some cur) : cur ∈ call.loopOffsets := by
  obtain ⟨ran, lost, -, hLoop⟩ := h
  have hFlying : cur ∈ flying s.thread := List.mem_filterMap.mpr ⟨t, List.mem_finRange t, hCur⟩
  apply hLoop.offsets.subset
  simp [hFlying]

end Failures

section Offsets

theorem Call.nodup_loopOffsets (hPos : 0 < call.sock.payloadSize) : call.loopOffsets.Nodup := by
  apply List.nodup_range.map
  intro k k' hEq
  exact Nat.succ_injective (Nat.eq_of_mul_eq_mul_right hPos hEq)

theorem Call.mem_loopOffsets (hPos : 0 < call.sock.payloadSize) {cur : Nat} (hCur : cur ∈ call.loopOffsets) :
    call.sock.payloadSize ∣ cur ∧ 0 < cur ∧ cur < call.curAfter ∧ cur < call.sz := by
  have hEnd := loopOffset_le hPos hCur
  obtain ⟨k, hk, rfl⟩ := List.mem_map.mp hCur
  have hLt : (k + 1) * call.sock.payloadSize < (call.iterations + 1) * call.sock.payloadSize :=
    Nat.mul_lt_mul_of_pos_right (Nat.succ_lt_succ (List.mem_range.mp hk)) hPos
  exact ⟨Nat.dvd_mul_left _ _, Nat.mul_pos (Nat.succ_pos k) hPos, hLt, by omega⟩

theorem pktOff_packet (hLt : call.sz < 2 ^ 32) (flags : BitVec 16) {cur : Nat} (hCur : cur ≤ call.sz) :
    (call.packet flags cur).pktOff.toNat = cur := by
  change (BitVec.ofNat 32 cur).toNat = cur
  rw [BitVec.toNat_ofNat, Nat.mod_eq_of_lt (by omega)]

theorem mem_range_packet (hLt : call.sz < 2 ^ 32) (flags : BitVec 16) {cur k : Nat} (hCur : cur ≤ call.sz) :
    k ∈ (call.packet flags cur).range ↔ cur ≤ k ∧ k < cur + call.sock.payloadSize ∧ k < call.sz := by
  rw [Packet.range, Set.mem_Ico, pktOff_packet hLt flags hCur, length_payload]
  omega

theorem disjoint_packets (hLt : call.sz < 2 ^ 32) {cur cur' : Nat} (flags flags' : BitVec 16)
    (hDvd : call.sock.payloadSize ∣ cur) (hDvd' : call.sock.payloadSize ∣ cur') (hLe : cur ≤ call.sz)
    (hLe' : cur' ≤ call.sz) (hNe : cur ≠ cur') :
    Disjoint (call.packet flags cur).range (call.packet flags' cur').range := by
  rw [Set.disjoint_left]
  intro k hk hk'
  rw [mem_range_packet hLt flags hLe] at hk
  rw [mem_range_packet hLt flags' hLe'] at hk'
  obtain ⟨a, rfl⟩ := hDvd
  obtain ⟨b, rfl⟩ := hDvd'
  rcases Nat.lt_or_gt_of_ne (fun hab : a = b => hNe (by rw [hab])) with hab | hab
  · have hStep := Nat.mul_le_mul_left call.sock.payloadSize hab
    rw [Nat.mul_succ] at hStep
    omega
  · have hStep := Nat.mul_le_mul_left call.sock.payloadSize hab
    rw [Nat.mul_succ] at hStep
    omega

end Offsets

section Pieces

/-- A packet of the call at a multiple of the payload size. -/
def IsPiece (call : Call) (pkt : Packet) : Prop :=
  ∃ flags cur, pkt = call.packet flags cur ∧ call.sock.payloadSize ∣ cur ∧ cur ≤ call.sz ∧
    (0 < call.sz → cur < call.sz)

theorem isPiece_first (call : Call) : IsPiece call call.firstPacket :=
  ⟨_, 0, rfl, Nat.dvd_zero _, Nat.zero_le _, id⟩

theorem isPiece_loop (hPos : 0 < call.sock.payloadSize) {cur : Nat} (hCur : cur ∈ call.loopOffsets) :
    IsPiece call (call.loopPacket cur) := by
  obtain ⟨hDvd, -, -, hLt⟩ := call.mem_loopOffsets hPos hCur
  exact ⟨_, cur, rfl, hDvd, Nat.le_of_lt hLt, fun _ => hLt⟩

theorem isPiece_last (h : call.curAfter < call.sz) : IsPiece call call.lastPacket :=
  ⟨_, _, rfl, Nat.dvd_mul_left _ _, Nat.le_of_lt h, fun _ => h⟩

theorem isPiece_of_mem (hPos : 0 < call.sock.payloadSize) {pkt : Packet} (hMem : pkt ∈ call.packets) :
    IsPiece call pkt := by
  rw [Call.packets, List.mem_cons, List.mem_append, List.mem_map] at hMem
  obtain rfl | ⟨cur, hCur, rfl⟩ | hLast := hMem
  · exact isPiece_first call
  · exact isPiece_loop hPos hCur
  · split at hLast
    · rw [List.mem_singleton.mp hLast]
      exact isPiece_last ‹_›
    · cases hLast

namespace IsPiece

variable {pkt : Packet}

theorem within (h : IsPiece call pkt) (hLt : call.sz < 2 ^ 32) : pkt.range ⊆ Set.Iio call.sz := by
  obtain ⟨flags, cur, rfl, -, hLe, -⟩ := h
  intro k hk
  exact ((mem_range_packet hLt flags hLe).mp hk).2.2

theorem content (h : IsPiece call pkt) (hLt : call.sz < 2 ^ 32) :
    pkt.payload = (call.buf.drop pkt.pktOff.toNat).take pkt.payload.length := by
  obtain ⟨flags, cur, rfl, -, hLe, -⟩ := h
  rw [pktOff_packet hLt flags hLe, Call.packet, List.length_take, List.take_eq_take_min]

theorem nonempty (h : IsPiece call pkt) (hPos : 0 < call.sock.payloadSize) (hSz : 0 < call.sz) :
    pkt.payload ≠ [] := by
  obtain ⟨flags, cur, rfl, -, -, hIn⟩ := h
  have hCur := hIn hSz
  apply List.ne_nil_of_length_pos
  rw [length_payload]
  omega

theorem small (h : IsPiece call pkt) : pkt.payload.length ≤ slmpPayloadSize := by
  obtain ⟨flags, cur, rfl, -⟩ := h
  have hLe := call.sock.payloadSize_le
  rw [length_payload]
  omega

theorem aligned (h : IsPiece call pkt) (hLt : call.sz < 2 ^ 32) : call.sock.align ∣ pkt.pktOff.toNat := by
  obtain ⟨flags, cur, rfl, hDvd, hLe, -⟩ := h
  rw [pktOff_packet hLt flags hLe]
  exact (Nat.dvd_mul_left _ _).trans hDvd

end IsPiece

theorem pairwise_whole (hPos : 0 < call.sock.payloadSize) (hLt : call.sz < 2 ^ 32) {ran : List Nat}
    (hRan : ran.Perm call.loopOffsets) (hLast : call.curAfter < call.sz) :
    (call.firstPacket :: (ran.map call.loopPacket ++ [call.lastPacket])).Pairwise
      fun pkt pkt' => Disjoint pkt.range pkt'.range := by
  have hIn : ∀ cur ∈ ran, call.sock.payloadSize ∣ cur ∧ 0 < cur ∧ cur < call.curAfter ∧ cur < call.sz :=
    fun cur hCur => call.mem_loopOffsets hPos (hRan.subset hCur)
  have hAfter : call.sock.payloadSize ∣ call.curAfter := Nat.dvd_mul_left _ _
  rw [List.pairwise_cons, List.pairwise_append, List.pairwise_map]
  refine ⟨?_, ?_, List.pairwise_singleton _ _, ?_⟩
  · intro pkt hMem
    rw [List.mem_append, List.mem_map, List.mem_singleton] at hMem
    obtain ⟨cur, hCur, rfl⟩ | rfl := hMem
    · obtain ⟨hDvd, hCurPos, -, hSz⟩ := hIn cur hCur
      exact disjoint_packets hLt _ _ (Nat.dvd_zero _) hDvd (Nat.zero_le _) (Nat.le_of_lt hSz)
        (Nat.ne_of_lt hCurPos)
    · have hFirst := call.payloadSize_le_curAfter
      exact disjoint_packets hLt _ _ (Nat.dvd_zero _) hAfter (Nat.zero_le _) (Nat.le_of_lt hLast) (by omega)
  · refine List.Pairwise.imp_of_mem ?_ (hRan.nodup_iff.mpr (call.nodup_loopOffsets hPos))
    intro cur cur' hCur hCur' hNe
    obtain ⟨hDvd, -, -, hSz⟩ := hIn cur hCur
    obtain ⟨hDvd', -, -, hSz'⟩ := hIn cur' hCur'
    exact disjoint_packets hLt _ _ hDvd hDvd' (Nat.le_of_lt hSz) (Nat.le_of_lt hSz') hNe
  · intro pkt hMem pkt' hMem'
    obtain ⟨cur, hCur, rfl⟩ := List.mem_map.mp hMem
    rw [List.mem_singleton.mp hMem']
    obtain ⟨hDvd, -, hBefore, hSz⟩ := hIn cur hCur
    exact disjoint_packets hLt _ _ hDvd hAfter (Nat.le_of_lt hSz) (Nat.le_of_lt hLast) (Nat.ne_of_lt hBefore)

theorem syn_firstFlags : syn call.firstFlags = true := by
  unfold Call.firstFlags
  split <;> decide

theorem eom_lastFlags : eom Call.lastFlags = true := by decide

theorem syn_loopFlags {cur : Nat} (hCur : 0 < cur) : syn (call.loopFlags cur) = true ↔ 0 < call.sock.wndSz := by
  rw [Call.loopFlags, if_neg (Nat.ne_of_gt hCur), Sock.ackForAll]
  split
  · exact iff_of_true (by decide) (of_decide_eq_true ‹_›)
  · exact iff_of_false (by decide) (fun h => absurd (decide_eq_true h) ‹_›)

theorem covers_of_perm (hPos : 0 < call.sock.payloadSize) (hLt : call.sz < 2 ^ 32) {sent : List Packet}
    (hPerm : sent.Perm call.packets) {k : Nat} (hk : k < call.sz) : ∃ pkt ∈ sent, k ∈ pkt.range := by
  obtain ⟨pkt, hMem, off, hSegment, hLow, hHigh⟩ := covered hPos hk
  have hFits := hSegment.fits
  refine ⟨pkt, hPerm.mem_iff.mpr hMem, ?_⟩
  rw [Packet.range, hSegment.pktOff, BitVec.toNat_ofNat, Nat.mod_eq_of_lt (by omega)]
  exact ⟨hLow, hHigh⟩

theorem segmentation_single (hPos : 0 < call.sock.payloadSize) (hLt : call.sz < 2 ^ 32)
    (hSmall : call.sz ≤ call.sock.payloadSize) : Segmentation call [call.firstPacket] := by
  have hPackets : call.packets = [call.firstPacket] := by
    have hLast : ¬ call.curAfter < call.sz := fun h => absurd ((call.curAfter_lt_iff hPos).mp h) (by omega)
    rw [Call.packets, call.loopOffsets_of_small hPos hSmall, if_neg hLast]
    rfl
  have hPiece : ∀ pkt ∈ [call.firstPacket], IsPiece call pkt := fun pkt hMem =>
    isPiece_of_mem hPos (hPackets ▸ hMem)
  have hLen : call.firstPacket.payload.length = call.sz := by
    rw [Call.firstPacket, length_payload]
    omega
  exact
    { covers := fun k hk => covers_of_perm hPos hLt (hPackets ▸ List.Perm.refl _) hk
      disjoint := List.pairwise_singleton _ _
      within := fun pkt hMem => (hPiece pkt hMem).within hLt
      content := fun pkt hMem => (hPiece pkt hMem).content hLt
      nonempty := fun hSz pkt hMem => (hPiece pkt hMem).nonempty hPos hSz
      empty := fun hSz => ⟨_, rfl, List.eq_nil_of_length_eq_zero (hLen.trans hSz)⟩
      small := fun pkt hMem => (hPiece pkt hMem).small
      aligned := fun pkt hMem => (hPiece pkt hMem).aligned hLt
      eom := ⟨[], call.firstPacket, rfl, eom_firstFlags.mpr hSmall, (Nat.zero_add _).trans hLen,
        fun other hMem => by cases hMem⟩
      syn := ⟨call.firstPacket, [], rfl, rfl, syn_firstFlags⟩
      middle := fun first mid last hEq => by
        have hLength := congrArg List.length hEq
        simp at hLength }

theorem segmentation_several (hPos : 0 < call.sock.payloadSize) (hLt : call.sz < 2 ^ 32)
    (hLarge : call.sock.payloadSize < call.sz) {ran : List Nat} (hRan : ran.Perm call.loopOffsets) :
    Segmentation call (call.firstPacket :: (ran.map call.loopPacket ++ [call.lastPacket])) := by
  have hLast : call.curAfter < call.sz := (call.curAfter_lt_iff hPos).mpr hLarge
  have hPerm : (call.firstPacket :: (ran.map call.loopPacket ++ [call.lastPacket])).Perm call.packets := by
    rw [Call.packets, if_pos hLast]
    exact ((hRan.map _).append_right _).cons _
  have hPiece : ∀ pkt ∈ call.firstPacket :: (ran.map call.loopPacket ++ [call.lastPacket]), IsPiece call pkt :=
    fun pkt hMem => isPiece_of_mem hPos (hPerm.subset hMem)
  have hEnd : call.lastPacket.pktOff.toNat + call.lastPacket.payload.length = call.sz := by
    have hGe := call.curAfter_add_ge hPos
    rw [Call.lastPacket, pktOff_packet hLt _ (Nat.le_of_lt hLast), length_payload]
    omega
  exact
    { covers := fun k hk => covers_of_perm hPos hLt hPerm hk
      disjoint := pairwise_whole hPos hLt hRan hLast
      within := fun pkt hMem => (hPiece pkt hMem).within hLt
      content := fun pkt hMem => (hPiece pkt hMem).content hLt
      nonempty := fun hSz pkt hMem => (hPiece pkt hMem).nonempty hPos hSz
      empty := fun hSz => absurd hLarge (by omega)
      small := fun pkt hMem => (hPiece pkt hMem).small
      aligned := fun pkt hMem => (hPiece pkt hMem).aligned hLt
      eom := by
        refine ⟨call.firstPacket :: ran.map call.loopPacket, call.lastPacket, rfl, eom_lastFlags, hEnd, ?_⟩
        intro other hMem
        rw [List.mem_cons, List.mem_map] at hMem
        obtain rfl | ⟨cur, -, rfl⟩ := hMem
        · exact Bool.eq_false_iff.mpr fun hEom => absurd (eom_firstFlags.mp hEom) (by omega)
        · exact eom_loopFlags cur
      syn := ⟨call.firstPacket, _, rfl, rfl, syn_firstFlags⟩
      middle := by
        intro first mid last hEq pkt hMem
        obtain ⟨-, hTail⟩ := List.cons.inj hEq
        obtain ⟨rfl, -⟩ := List.append_inj' hTail rfl
        obtain ⟨cur, hCur, rfl⟩ := List.mem_map.mp hMem
        exact syn_loopFlags (call.mem_loopOffsets hPos (hRan.subset hCur)).2.1 }

theorem Whole.segments {s : State call} (h : Whole s) (hPos : 0 < call.sock.payloadSize)
    (hLt : call.sz < 2 ^ 32) : Segmentation call s.sent := by
  obtain ⟨ran, hRan, hSent⟩ := h
  rw [hSent]
  rcases Nat.lt_or_ge call.sock.payloadSize call.sz with hLarge | hSmall
  · rw [if_pos ((call.curAfter_lt_iff hPos).mpr hLarge)]
    exact segmentation_several hPos hLt hLarge hRan
  · have hNone : ran = [] := by
      rw [call.loopOffsets_of_small hPos hSmall] at hRan
      exact hRan.eq_nil
    have hLast : ¬ call.curAfter < call.sz := fun h => absurd ((call.curAfter_lt_iff hPos).mp h) (by omega)
    rw [if_neg hLast, hNone]
    exact segmentation_single hPos hLt hSmall

end Pieces

/-- When a call in which no send failed has returned, its packets are a segmentation of the message. -/
theorem segmentation (call : Call) (hAlign : 1 ≤ call.sock.align ∧ call.sock.align ≤ slmpPayloadSize)
    (hLt : call.sz < 2 ^ 32) {actions : List (Action call)} {s : State call} {ret : Int}
    (hRun : run step (State.init call) actions = some s) (hReturned : s.phase = .returned ret)
    (hSends : Along step (fun s a => sendFails s a = false) (State.init call) actions) :
    Segmentation call s.sent := by
  have hPos := call.sock.payloadSize_pos hAlign.1 hAlign.2
  have hUnfailed : Unfailed s := along_invariant Unfailed
    (fun _ _ _ h hSends hStep => unfailed_step hPos h hSends hStep) (unfailed_init call) hSends hRun
  exact (hUnfailed.ended ret (.inr hReturned)).segments hPos hLt

def fourPackets : Call := ⟨⟨2, 500, 2, Nat.two_pos⟩, 7, List.replicate 3500 5⟩

def threadA : Fin fourPackets.sock.numThreads := ⟨0, Nat.two_pos⟩

def threadB : Fin fourPackets.sock.numThreads := ⟨1, Nat.one_lt_two⟩

/-- The second thread is the first to send. -/
def fourPacketsActions : List (Action fourPackets) :=
  [.syn true, .synAck 1, .enter threadA 1000, .enter threadB 2000, .send threadB [] true, .send threadA [] true,
    .join, .last [2] true, .drain 1]

theorem segmentation_fourPackets :
    ∃ s : State fourPackets, run step (State.init fourPackets) fourPacketsActions = some s ∧
      s.sent.map (fun pkt => pkt.pktOff.toNat) = [0, 2000, 1000, 3000] ∧ Segmentation fourPackets s.sent := by
  have hEnd : (run step (State.init fourPackets) fourPacketsActions).map
      (fun s => (s.phase, s.sent.map fun pkt => pkt.pktOff.toNat)) =
        some (.returned 0, [0, 2000, 1000, 3000]) := by
    decide +kernel
  obtain ⟨s, hRun, hFields⟩ := Option.map_eq_some_iff.mp hEnd
  obtain ⟨hPhase, hOffsets⟩ := Prod.mk.inj hFields
  exact ⟨s, hRun, hOffsets, segmentation fourPackets ⟨by decide, by decide⟩ (by decide +kernel) hRun hPhase
    (by decide +kernel)⟩

end FPsPIN.Slmp
