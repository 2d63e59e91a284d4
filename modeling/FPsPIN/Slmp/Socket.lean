import FPsPIN.Slmp.Sender

/-!
# Sockets and packetisation

Function slmp_socket and the part of slmp_sendmsg that cuts a message into
packets, for all arguments of type int. The payload size is the step of the
loop and it is zero for an alignment above the packet size, which slmp_socket
does not check; an alignment of zero divides by zero. The loop is modelled as
the C text has it, where a step of zero has no last iteration; the OpenMP build
divides by the step first. A negative alignment does what its absolute value
does. Addresses are offsets from the buffer, taken not to wrap around.
-/

namespace FPsPIN.Slmp

/-- A socket as slmp_socket fills it in. -/
structure SlmpSock where
  wndSz : Int
  align : Int
  fcUs : Int
  numThreads : Int

/-- Function slmp_socket; none stands for -1 with EINVAL. -/
def slmpSocket (wndSz align fcUs numThreads : Int) : Option SlmpSock :=
  if numThreads ≤ 0 then none
  else if wndSz < 0 then none
  else some ⟨wndSz, align, fcUs, numThreads⟩

namespace SlmpSock

/-- The payload size of slmp_sendmsg, none if it divides by zero. -/
def payloadSize (sock : SlmpSock) : Option Nat :=
  if sock.align = 0 then none else some ((slmpPayloadSize : Int).tdiv sock.align * sock.align).toNat

end SlmpSock

/-- The loop over the middle packets in order: its offsets and the loop variable after it,
none while it runs on. -/
def loopFrom (payloadSize sz : Nat) : (fuel : Nat) → (cur : Nat) → Option (List Nat × Nat)
  | 0, _ => none
  | fuel + 1, cur =>
    if (cur : Int) < sz - payloadSize then
      (loopFrom payloadSize sz fuel (cur + payloadSize)).map fun rest => (cur :: rest.1, rest.2)
    else some ([], cur)

/-- The number of bytes that send_single copies into its packet. -/
def copied (payloadSize sz cur : Nat) : Nat := if sz - cur > payloadSize then payloadSize else sz - cur

/-- No division by zero, a loop that ends, and payloads that fit into the packet buffer. -/
def Packetises (sock : SlmpSock) (sz : Nat) : Prop :=
  ∃ payloadSize fuel offsets after, sock.payloadSize = some payloadSize ∧
    loopFrom payloadSize sz fuel payloadSize = some (offsets, after) ∧
    ∀ cur ∈ 0 :: (offsets ++ if after < sz then [after] else []), copied payloadSize sz cur ≤ slmpPayloadSize

section Loop

variable {ps sz : Nat}

theorem loopFrom_ends (hPos : 0 < ps) (fuel : Nat) {cur : Nat} (h : sz ≤ cur + ps + fuel) :
    ∃ offsets after, loopFrom ps sz (fuel + 1) cur = some (offsets, after) := by
  induction fuel generalizing cur with
  | zero => exact ⟨[], cur, if_neg (by omega)⟩
  | succ fuel ih =>
    rw [loopFrom]
    split
    · have hNext : sz ≤ cur + ps + ps + fuel := by omega
      obtain ⟨offsets, after, hRest⟩ := ih hNext
      rw [hRest]
      exact ⟨cur :: offsets, after, rfl⟩
    · exact ⟨[], cur, rfl⟩

theorem loopFrom_zero (h : 0 < sz) (fuel : Nat) : loopFrom 0 sz fuel 0 = none := by
  induction fuel with
  | zero => rfl
  | succ fuel ih =>
    rw [loopFrom, if_pos (by omega), Nat.add_zero, ih]
    rfl

end Loop

section Sender

variable (call : Call)

theorem loopFrom_iterations (hPos : 0 < call.sock.payloadSize) (m : Nat) {k : Nat} (h : k + m = call.iterations) :
    loopFrom call.sock.payloadSize call.sz (m + 1) ((k + 1) * call.sock.payloadSize) =
      some ((List.range' k m).map fun j => (j + 1) * call.sock.payloadSize, call.curAfter) := by
  have hCond := call.lt_iterations_iff (k := k) hPos
  induction m generalizing k with
  | zero =>
    have hEnd : ¬ k < call.iterations := by omega
    rw [hCond] at hEnd
    rw [loopFrom, if_neg (by omega), Call.curAfter, ← h]
    rfl
  | succ m ih =>
    have hLoop := hCond.mp (by omega)
    have hRest := ih (k := k + 1) (by omega) (call.lt_iterations_iff hPos)
    rw [loopFrom, if_pos (by omega), ← Nat.succ_mul, hRest]
    rfl

/-- The iterations that the model of the sender hands to its threads are those of the loop in order. -/
theorem loopFrom_call (hPos : 0 < call.sock.payloadSize) :
    loopFrom call.sock.payloadSize call.sz (call.iterations + 1) call.sock.payloadSize =
      some (call.loopOffsets, call.curAfter) := by
  have hLoop := loopFrom_iterations call hPos call.iterations (Nat.zero_add _)
  rw [Nat.zero_add, Nat.one_mul, ← List.range_eq_range'] at hLoop
  exact hLoop

end Sender

section Sizes

variable {sock : SlmpSock} {ps : Nat}

theorem tdiv_mul_natAbs (a : Nat) (b : Int) : (a : Int).tdiv b * b = (a / b.natAbs * b.natAbs : Nat) := by
  rcases Int.natAbs_eq b with hEq | hEq
  · rw [hEq, Int.natAbs_natCast]
    rfl
  · rw [hEq, Int.tdiv_neg, Int.neg_mul_neg, Int.natAbs_neg, Int.natAbs_natCast]
    rfl

theorem SlmpSock.payloadSize_eq (hAlign : sock.align ≠ 0) :
    sock.payloadSize = some (slmpPayloadSize / sock.align.natAbs * sock.align.natAbs) := by
  rw [payloadSize, if_neg hAlign, tdiv_mul_natAbs, Int.toNat_natCast]

theorem payloadSize_sock (sock : Sock) (fcUs : Int) (hAlign : 1 ≤ sock.align) :
    SlmpSock.payloadSize ⟨sock.wndSz, sock.align, fcUs, sock.numThreads⟩ = some sock.payloadSize :=
  SlmpSock.payloadSize_eq (Int.natCast_ne_zero.mpr (by omega))

theorem copied_le (hLe : ps ≤ slmpPayloadSize) (sz cur : Nat) : copied ps sz cur ≤ slmpPayloadSize := by
  unfold copied
  split <;> omega

theorem packetises_of_pos (hSize : sock.payloadSize = some ps) (hPos : 0 < ps) (hLe : ps ≤ slmpPayloadSize)
    (sz : Nat) :
    Packetises sock sz := by
  obtain ⟨offsets, after, hLoop⟩ := loopFrom_ends hPos sz (Nat.le_add_left sz (ps + ps))
  exact ⟨ps, sz + 1, offsets, after, hSize, hLoop, fun cur _ => copied_le hLe sz cur⟩

theorem packetises_zero_iff (hSize : sock.payloadSize = some 0) (sz : Nat) : Packetises sock sz ↔ sz = 0 := by
  constructor
  · rintro ⟨ps, fuel, offsets, after, hSome, hLoop, -⟩
    obtain rfl := Option.some.inj (hSize.symm.trans hSome)
    by_contra hNe
    rw [loopFrom_zero (Nat.pos_of_ne_zero hNe)] at hLoop
    cases hLoop
  · rintro rfl
    exact ⟨0, 1, [], 0, hSize, rfl, fun cur _ => copied_le (Nat.zero_le _) 0 cur⟩

end Sizes

/-- A message on an accepted socket is cut into packets exactly if the alignment is not zero and at most the
packet size, or the message is empty. -/
theorem packetises_iff {wndSz align fcUs numThreads : Int} {sock : SlmpSock}
    (hSocket : slmpSocket wndSz align fcUs numThreads = some sock) (sz : Nat) :
    Packetises sock sz ↔ align ≠ 0 ∧ (align.natAbs ≤ slmpPayloadSize ∨ sz = 0) := by
  have hAlign : sock.align = align := by
    unfold slmpSocket at hSocket
    split_ifs at hSocket
    cases hSocket
    rfl
  rw [← hAlign]
  by_cases hZero : sock.align = 0
  · refine iff_of_false ?_ fun h => h.1 hZero
    rintro ⟨ps, -, -, -, hSize, -⟩
    rw [SlmpSock.payloadSize, if_pos hZero] at hSize
    cases hSize
  · have hSize := SlmpSock.payloadSize_eq hZero
    have hPos : 0 < sock.align.natAbs := Int.natAbs_pos.mpr hZero
    rcases Nat.lt_or_ge slmpPayloadSize sock.align.natAbs with hLarge | hSmall
    · rw [Nat.div_eq_of_lt hLarge, Nat.zero_mul] at hSize
      rw [packetises_zero_iff hSize]
      exact ⟨fun h => ⟨hZero, .inr h⟩, fun h => h.2.resolve_left (Nat.not_le_of_lt hLarge)⟩
    · exact iff_of_true (packetises_of_pos hSize (Nat.mul_pos (Nat.div_pos hSmall hPos) hPos)
        (Nat.div_mul_le_self _ _) sz) ⟨hZero, .inl hSmall⟩

theorem packetises_unaligned : ∃ sock, slmpSocket 64 1 0 4 = some sock ∧ Packetises sock 100000 :=
  ⟨_, rfl, (packetises_iff (rfl : slmpSocket 64 1 0 4 = some _) 100000).mpr ⟨by decide, .inl (by decide)⟩⟩

/-- One byte with an alignment above the packet size: the step is zero. The library is built with OpenMP, which divides
by the step to count the iterations, so the call ends with SIGFPE; without OpenMP the loop does not end. -/
theorem wideAlign_not_packetised :
    ¬ ∀ (wndSz align fcUs numThreads : Int) (sock : SlmpSock) (sz : Nat),
      slmpSocket wndSz align fcUs numThreads = some sock → Packetises sock sz := by
  intro hAll
  obtain ⟨ps, fuel, offsets, after, hSize, hLoop, -⟩ := hAll 64 1463 0 4 ⟨64, 1463, 0, 4⟩ 1 rfl
  obtain rfl : 0 = ps := Option.some.inj hSize
  rw [loopFrom_zero Nat.one_pos] at hLoop
  cases hLoop

end FPsPIN.Slmp
