import Mathlib.Algebra.Group.Nat.Defs
import FPsPIN.Lib.Ranges
import FPsPIN.Lib.Trace

/-!
# The packet ring of the simulator

The inbound engine of the Verilator model keeps packets in a ring. Space is
taken at the tail, at the start of the buffer if it does not suffice at the
end; the place where the ring was cut is remembered, and the head jumps to the
start when it gets there by freeing a packet. Packets are freed in any order,
and the head moves over those that are free.

If the ring is empty when it is cut, the head is at the cut already. It does
not get there by freeing a packet, so it never jumps: no packet that is
allocated from then on is reclaimed. Packets never overlap, even then.
-/

namespace FPsPIN.Simulator

open FPsPIN.Ranges FPsPIN.Trace

/-- Size of the buffer. A size of a packet can be rounded up in 32 bits. -/
structure Params where
  l2PktBuffSize : Nat
  size_le : l2PktBuffSize + 63 < 2 ^ 32

/-- A size in whole segments of NI_PKT_ADDR_ALIGNMENT bytes. -/
def aligned (size : Nat) : Nat := (size + 64 - 1) % 2 ^ 32 / 64 * 64

structure Packet where
  offset : Nat
  size : Nat
deriving DecidableEq

def Packet.range (pkt : Packet) : Range := ⟨pkt.offset, aligned pkt.size⟩

/-- The members of NICInbound that belong to the ring, and the packets that were not returned yet. -/
structure State where
  headPtr : Nat
  tailPtr : Nat
  cutPtr : Nat
  cut : Bool
  inFlightPackets : Nat
  freeReqQueue : List Range
  outstanding : List Packet
deriving DecidableEq

namespace State

def init : State := ⟨0, 0, 0, false, 0, [], []⟩

/-- The space at the tail is taken. -/
def take (s : State) (pktSize : Nat) : State :=
  { s with
    tailPtr := s.tailPtr + aligned pktSize
    inFlightPackets := s.inFlightPackets + 1
    outstanding := s.outstanding ++ [⟨s.tailPtr, pktSize⟩] }

def cutAtTail (s : State) : State := { s with cutPtr := s.tailPtr, cut := true, tailPtr := 0 }

def allocatePktSpace (p : Params) (s : State) (pktSize : Nat) : Option State :=
  if s.headPtr < s.tailPtr ∨ (s.tailPtr = s.headPtr ∧ s.inFlightPackets = 0) then
    if aligned pktSize ≤ p.l2PktBuffSize - s.tailPtr then some (s.take pktSize)
    else if aligned pktSize ≤ s.headPtr then some (s.cutAtTail.take pktSize)
    else none
  else if s.tailPtr < s.headPtr then
    if aligned pktSize ≤ s.headPtr - s.tailPtr then some (s.take pktSize) else none
  else none

/-- The body of the loop: the request at the head is erased and the head moves behind it. -/
def advance (s : State) (headPtrIncrease : Nat) : State :=
  let headPtr := s.headPtr + headPtrIncrease
  let atCut := s.cut && headPtr == s.cutPtr
  { s with
    headPtr := if atCut then 0 else headPtr
    cut := s.cut && !atCut
    inFlightPackets := s.inFlightPackets - 1
    freeReqQueue := s.freeReqQueue.filter fun r => r.start != s.headPtr }

-- Each turn erases a request, so their number bounds the turns.
def reclaim : Nat → State → State
  | 0, s => s
  | n + 1, s =>
    match s.freeReqQueue.find? fun r => r.start == s.headPtr with
    | none => s
    | some r => reclaim n (s.advance r.length)

def request (s : State) (pkt : Packet) : State :=
  { s with
    freeReqQueue := pkt.range :: s.freeReqQueue.filter fun r => r.start != pkt.offset
    outstanding := s.outstanding.erase pkt }

def freePktSpace (s : State) (pkt : Packet) : State :=
  reclaim (s.request pkt).freeReqQueue.length (s.request pkt)

end State

inductive Action where
  | allocate (pktSize : Nat)
  | free (pkt : Packet)
deriving DecidableEq

/-- A packet that finds no space leaves the ring as it is, and only outstanding packets are returned. -/
def State.step (p : Params) (s : State) : Action → Option State
  | .allocate pktSize =>
    if 1 ≤ pktSize ∧ pktSize ≤ p.l2PktBuffSize then some ((s.allocatePktSpace p pktSize).getD s) else none
  | .free pkt => if pkt ∈ s.outstanding then some (s.freePktSpace pkt) else none

variable (p : Params)

def Reclaims (s : State) : Prop :=
  ∀ pkts s', run (fun s pkt => s.step p (.free pkt)) s pkts = some s' → s'.outstanding = [] →
    s'.freeReqQueue = [] ∧ s'.inFlightPackets = 0

structure Placed (s : State) : Prop where
  apart : (s.outstanding.map Packet.range).Pairwise Apart
  inside : ∀ pkt ∈ s.outstanding, pkt.offset + aligned pkt.size ≤ p.l2PktBuffSize

structure Good (s : State) : Prop where
  placed : Placed p s
  reclaims : Reclaims p s

/-- The ring is not cut while it is empty. -/
def NoEmptyCut (s : State) : Action → Prop
  | .allocate pktSize =>
    ¬ (s.inFlightPackets = 0 ∧ p.l2PktBuffSize - s.tailPtr < aligned pktSize ∧ aligned pktSize ≤ s.headPtr)
  | .free _ => True

section Steps

variable {p} {s s' : State} {pktSize : Nat} {pkt : Packet}

theorem aligned_pos (hPos : 1 ≤ pktSize) (hSize : pktSize ≤ p.l2PktBuffSize) : 0 < aligned pktSize := by
  have hBound := p.size_le
  unfold aligned
  omega

/-- What an allocation does: nothing, or the space at the tail is taken, or the ring is cut. -/
inductive AllocCase (p : Params) (s : State) (pktSize : Nat) : State → Prop where
  | unchanged : AllocCase p s pktSize s
  | behind (hTail : s.headPtr ≤ s.tailPtr) (hFits : aligned pktSize ≤ p.l2PktBuffSize - s.tailPtr)
      (hMay : s.tailPtr = s.headPtr → s.inFlightPackets = 0) : AllocCase p s pktSize (s.take pktSize)
  | between (hTail : s.tailPtr < s.headPtr) (hFits : aligned pktSize ≤ s.headPtr - s.tailPtr) :
      AllocCase p s pktSize (s.take pktSize)
  | cut (hTail : s.headPtr ≤ s.tailPtr) (hShort : p.l2PktBuffSize - s.tailPtr < aligned pktSize)
      (hFits : aligned pktSize ≤ s.headPtr) (hMay : s.tailPtr = s.headPtr → s.inFlightPackets = 0) :
      AllocCase p s pktSize (s.cutAtTail.take pktSize)

theorem allocatePktSpace_cases (p : Params) (s : State) (pktSize : Nat) :
    AllocCase p s pktSize ((s.allocatePktSpace p pktSize).getD s) := by
  unfold State.allocatePktSpace
  split
  · next hMay =>
    have hTail : s.headPtr ≤ s.tailPtr := hMay.elim Nat.le_of_lt fun hSame => Nat.le_of_eq hSame.1.symm
    have hEmpty : s.tailPtr = s.headPtr → s.inFlightPackets = 0 := by
      intro hSame
      exact hMay.elim (fun hLt => absurd hSame.symm (Nat.ne_of_lt hLt)) And.right
    split
    · next hFits => exact AllocCase.behind hTail hFits hEmpty
    · next hShort =>
      split
      · next hFits => exact AllocCase.cut hTail (Nat.lt_of_not_le hShort) hFits hEmpty
      · exact AllocCase.unchanged
  · split
    · next hTail =>
      split
      · next hFits => exact AllocCase.between hTail hFits
      · exact AllocCase.unchanged
    · exact AllocCase.unchanged

theorem step_allocate (hNext : s.step p (.allocate pktSize) = some s') :
    0 < aligned pktSize ∧ (s.allocatePktSpace p pktSize).getD s = s' := by
  simp only [State.step] at hNext
  split at hNext
  · next hSize => exact ⟨aligned_pos hSize.1 hSize.2, Option.some.inj hNext⟩
  · exact nomatch hNext

theorem step_free (hNext : s.step p (.free pkt) = some s') : pkt ∈ s.outstanding ∧ s.freePktSpace pkt = s' := by
  simp only [State.step] at hNext
  split at hNext
  · next hMem => exact ⟨hMem, Option.some.inj hNext⟩
  · exact nomatch hNext

theorem State.reclaim_of_none (n : Nat) (hNone : ∀ r ∈ s.freeReqQueue, r.start ≠ s.headPtr) :
    s.reclaim n = s := by
  have hFind : (s.freeReqQueue.find? fun r => r.start == s.headPtr) = none :=
    List.find?_eq_none.mpr fun r hMem hBeq => hNone r hMem (beq_iff_eq.mp hBeq)
  cases n with
  | zero => rfl
  | succ n => rw [State.reclaim, hFind]

end Steps

section Layout

/-- The packets in the ring in the order in which they were allocated. -/
inductive Laid (s : State) : List Range → Prop where
  | whole {live : List Range} (hCut : s.cut = false) (hLive : Chain s.headPtr live s.tailPtr)
      (hEnd : s.tailPtr ≤ p.l2PktBuffSize) : Laid s live
  | wrapped {first second : List Range} (hCut : s.cut = true) (hFirst : Chain s.headPtr first s.cutPtr)
      (hSome : first ≠ []) (hEnd : s.cutPtr ≤ p.l2PktBuffSize) (hSecond : Chain 0 second s.tailPtr)
      (hTail : s.tailPtr ≤ s.headPtr) : Laid s (first ++ second)

variable {p} {s : State} {live : List Range} {r : Range}

theorem Laid.bounds (h : Laid p s live) :
    ∀ r ∈ live, 0 < r.length ∧ r.start + r.length ≤ p.l2PktBuffSize := by
  intro r hMem
  cases h with
  | whole hCut hLive hEnd =>
    have hBounds := hLive.bounds r hMem
    omega
  | wrapped hCut hFirst hSome hEnd hSecond hTail =>
    have hLe := hFirst.le
    rcases List.mem_append.mp hMem with hMem | hMem
    · have hBounds := hFirst.bounds r hMem
      omega
    · have hBounds := hSecond.bounds r hMem
      omega

theorem Laid.pairwise (h : Laid p s live) : live.Pairwise Apart := by
  cases h with
  | whole hCut hLive hEnd => exact hLive.pairwise
  | wrapped hCut hFirst hSome hEnd hSecond hTail =>
    refine List.pairwise_append.mpr ⟨hFirst.pairwise, hSecond.pairwise, fun r hr r' hr' => ?_⟩
    have hAfter := hFirst.bounds r hr
    have hBefore := hSecond.bounds r' hr'
    exact (apart_of_le (by omega : r'.start + r'.length ≤ r.start)).symm

theorem Laid.start_eq (h : Laid p s (r :: live)) : r.start = s.headPtr := by
  generalize hList : r :: live = all at h
  cases h with
  | whole hCut hLive hEnd =>
    subst hList
    exact hLive.1
  | @wrapped first second hCut hFirst hSome hEnd hSecond hTail =>
    cases first with
    | nil => exact absurd rfl hSome
    | cons r' first =>
      cases hList
      exact hFirst.1

theorem Laid.empty (h : Laid p s []) : s.tailPtr = s.headPtr ∧ s.tailPtr ≤ p.l2PktBuffSize := by
  generalize hList : [] = all at h
  cases h with
  | whole hCut hLive hEnd =>
    subst hList
    exact ⟨Eq.symm hLive, hEnd⟩
  | wrapped hCut hFirst hSome hEnd hSecond hTail =>
    exact absurd (List.append_eq_nil_iff.mp hList.symm).1 hSome

theorem Laid.advance (h : Laid p s (r :: live)) : Laid p (s.advance r.length) live := by
  generalize hList : r :: live = all at h
  cases h with
  | whole hCut hLive hEnd =>
    subst hList
    refine Laid.whole ?_ ?_ hEnd
    · simp [State.advance, hCut]
    · simpa [State.advance, hCut] using hLive.2.2
  | @wrapped first second hCut hFirst hSome hEnd hSecond hTail =>
    cases first with
    | nil => exact absurd rfl hSome
    | cons r' first =>
      cases hList
      obtain ⟨hStart, hPos, hRest⟩ := hFirst
      cases first with
      | nil =>
        -- The last packet before the cut: the head jumps to the start.
        have hAt : s.headPtr + r.length = s.cutPtr := hRest
        refine Laid.whole ?_ ?_ ?_
        · simp [State.advance, hAt]
        · simpa [State.advance, hAt, hCut] using hSecond
        · change s.tailPtr ≤ _
          omega
      | cons r' first =>
        have hBefore : s.headPtr + r.length < s.cutPtr := hRest.lt (List.cons_ne_nil _ _)
        have hNot : (s.headPtr + r.length == s.cutPtr) = false := beq_false_of_ne (Nat.ne_of_lt hBefore)
        refine Laid.wrapped ?_ ?_ (List.cons_ne_nil _ _) hEnd hSecond ?_
        · simp [State.advance, hNot, hCut]
        · simpa [State.advance, hNot] using hRest
        · simp only [State.advance, hNot, Bool.and_false, Bool.false_eq_true, if_false]
          omega

end Layout

section Accounting

variable {s s' : State} {live : List Range}

/-- Each packet in the ring is outstanding or waits for the head to reach it. -/
structure Accounts (s : State) (live : List Range) : Prop where
  apart : live.Pairwise Apart
  pos : ∀ r ∈ live, 0 < r.length
  parts : (s.outstanding.map Packet.range ++ s.freeReqQueue).Perm live
  inFlight : s.inFlightPackets = live.length

theorem Accounts.nodup (h : Accounts s live) :
    (s.outstanding.map (Range.start ∘ Packet.range) ++ s.freeReqQueue.map Range.start).Nodup := by
  have hLive := (h.parts.map Range.start).nodup_iff.mpr (nodup_start h.apart h.pos)
  rwa [List.map_append, List.map_map] at hLive

theorem Accounts.not_requested (h : Accounts s live) {pkt : Packet} (hMem : pkt ∈ s.outstanding) :
    ∀ r ∈ s.freeReqQueue, r.start ≠ pkt.offset := by
  intro r hr hSame
  have hOut := List.mem_map_of_mem (f := Range.start ∘ Packet.range) hMem
  exact (List.nodup_append.mp h.nodup).2.2 _ hOut _ (List.mem_map_of_mem hr) hSame.symm

theorem Accounts.request (h : Accounts s live) {pkt : Packet} (hMem : pkt ∈ s.outstanding) :
    Accounts (s.request pkt) live := by
  have hFilter : (s.freeReqQueue.filter fun r => r.start != pkt.offset) = s.freeReqQueue :=
    List.filter_eq_self.mpr fun r hr => bne_iff_ne.mpr (h.not_requested hMem r hr)
  refine ⟨h.apart, h.pos, ?_, h.inFlight⟩
  change ((s.outstanding.erase pkt).map Packet.range ++ pkt.range :: s.freeReqQueue.filter _).Perm live
  rw [hFilter]
  have hErase := (List.perm_cons_erase hMem).map Packet.range
  exact (List.perm_middle.trans (hErase.symm.append_right _)).trans h.parts

theorem Accounts.take (h : Accounts s live) {pktSize : Nat}
    (hApart : (live ++ [(⟨s.tailPtr, aligned pktSize⟩ : Range)]).Pairwise Apart) (hPos : 0 < aligned pktSize) :
    Accounts (s.take pktSize) (live ++ [⟨s.tailPtr, aligned pktSize⟩]) := by
  refine ⟨hApart, fun r hMem => ?_, ?_, ?_⟩
  · rcases List.mem_append.mp hMem with hMem | hMem
    · exact h.pos r hMem
    · cases List.mem_singleton.mp hMem
      exact hPos
  · simp only [State.take, List.map_append, List.map_cons, List.map_nil, List.append_assoc]
    refine (List.Perm.append_left _ List.perm_append_comm).trans ?_
    rw [← List.append_assoc]
    exact h.parts.append_right _
  · simp only [State.take, h.inFlight, List.length_append, List.length_singleton]

theorem Accounts.cutAtTail (h : Accounts s live) : Accounts s.cutAtTail live :=
  ⟨h.apart, h.pos, h.parts, h.inFlight⟩

theorem Accounts.empty (h : Accounts s live) (hZero : s.inFlightPackets = 0) : live = [] :=
  List.length_eq_zero_iff.mp (h.inFlight.symm.trans hZero)

theorem Accounts.outstanding_apart (h : Accounts s live) : (s.outstanding.map Packet.range).Pairwise Apart :=
  (List.pairwise_append.mp (pairwise_perm h.apart h.parts.symm)).1

theorem Accounts.outstanding_live (h : Accounts s live) {pkt : Packet} (hMem : pkt ∈ s.outstanding) :
    pkt.range ∈ live :=
  h.parts.mem_iff.mp (List.mem_append_left _ (List.mem_map_of_mem hMem))

end Accounting

section Frees

variable {p} {s : State} {live : List Range}

structure Held (p : Params) (s : State) (live : List Range) : Prop where
  laid : Laid p s live
  accounts : Accounts s live

theorem Held.oldest (h : Held p s live) {r : Range} (hMem : r ∈ s.freeReqQueue) (hHead : r.start = s.headPtr) :
    ∃ rest, live = r :: rest := by
  have hLive : r ∈ live := h.accounts.parts.mem_iff.mp (List.mem_append_right _ hMem)
  cases live with
  | nil => exact nomatch hLive
  | cons r' rest =>
    have hNodup := nodup_start h.accounts.apart h.accounts.pos
    have hFirst : r'.start = r.start := h.laid.start_eq.trans hHead.symm
    rcases List.mem_cons.mp hLive with rfl | hRest
    · exact ⟨rest, rfl⟩
    · exact absurd (hFirst ▸ List.mem_map_of_mem hRest) (List.nodup_cons.mp hNodup).1

theorem Held.advance (h : Held p s live) {r : Range} (hMem : r ∈ s.freeReqQueue) (hHead : r.start = s.headPtr) :
    ∃ rest, Held p (s.advance r.length) rest := by
  obtain ⟨rest, rfl⟩ := h.oldest hMem hHead
  obtain ⟨hApart, hPos, hParts, hCount⟩ := h.accounts
  have hFilter := perm_filter_start (List.nodup_append.mp h.accounts.nodup).2.1 hMem
  rw [hHead] at hFilter
  refine ⟨rest, h.laid.advance, hApart.of_cons, fun r' hr' => hPos r' (List.mem_cons_of_mem _ hr'), ?_, ?_⟩
  · exact ((List.perm_middle.symm.trans (hFilter.symm.append_left _)).trans hParts).cons_inv
  · change s.inFlightPackets - 1 = _
    rw [hCount, List.length_cons, Nat.add_sub_cancel]

/-- The ring between two calls: the loop stops where the head meets no request. -/
structure RingInv (p : Params) (s : State) : Prop where
  held : ∃ live, Held p s live
  head : ∀ r ∈ s.freeReqQueue, r.start ≠ s.headPtr

theorem Held.reclaim {n : Nat} (h : Held p s live) (hTurns : s.freeReqQueue.length ≤ n) :
    RingInv p (s.reclaim n) := by
  induction n generalizing s live with
  | zero =>
    have hNone : s.freeReqQueue = [] := List.length_eq_zero_iff.mp (Nat.le_zero.mp hTurns)
    exact ⟨⟨live, h⟩, fun r hMem => nomatch hNone ▸ hMem⟩
  | succ n ih =>
    unfold State.reclaim
    split
    · next hNone =>
      refine ⟨⟨live, h⟩, fun r hMem hHead => ?_⟩
      exact List.find?_eq_none.mp hNone r hMem (beq_iff_eq.mpr hHead)
    · next r hFound =>
      have hMem := List.mem_of_find?_eq_some hFound
      have hBeq := List.find?_some hFound
      have hHead : r.start = s.headPtr := beq_iff_eq.mp hBeq
      obtain ⟨rest, hRest⟩ := h.advance hMem hHead
      refine ih hRest (Nat.le_of_lt_succ (Nat.lt_of_lt_of_le ?_ hTurns))
      exact List.length_filter_lt_length_iff_exists.mpr ⟨r, hMem, by simp [hHead]⟩

theorem RingInv.free (h : RingInv p s) {pkt : Packet} (hMem : pkt ∈ s.outstanding) :
    RingInv p (s.freePktSpace pkt) := by
  obtain ⟨live, hLaid, hAccounts⟩ := h.held
  have hRequest : Laid p (s.request pkt) live := by
    cases hLaid with
    | whole hCut hLive hEnd => exact Laid.whole hCut hLive hEnd
    | wrapped hCut hFirst hSome hEnd hSecond hTail => exact Laid.wrapped hCut hFirst hSome hEnd hSecond hTail
  have hHeld : Held p (s.request pkt) live := ⟨hRequest, hAccounts.request hMem⟩
  exact hHeld.reclaim (Nat.le_refl _)

theorem RingInv.reclaimed (h : RingInv p s) (hNone : s.outstanding = []) :
    s.freeReqQueue = [] ∧ s.inFlightPackets = 0 := by
  obtain ⟨live, hLaid, hAccounts⟩ := h.held
  have hParts := hAccounts.parts
  rw [hNone, List.map_nil, List.nil_append] at hParts
  cases live with
  | nil => exact ⟨hParts.eq_nil, hAccounts.inFlight⟩
  | cons r rest => exact absurd hLaid.start_eq (h.head r (hParts.mem_iff.mpr List.mem_cons_self))

theorem RingInv.placed (h : RingInv p s) : Placed p s := by
  obtain ⟨live, hLaid, hAccounts⟩ := h.held
  refine ⟨hAccounts.outstanding_apart, fun pkt hMem => ?_⟩
  exact (hLaid.bounds _ (hAccounts.outstanding_live hMem)).2

theorem RingInv.good (h : RingInv p s) : Good p s := by
  refine ⟨h.placed, fun pkts s' hRun hNone => ?_⟩
  have hStep : ∀ s pkt s', RingInv p s → s.step p (.free pkt) = some s' → RingInv p s' := by
    intro s pkt s' hInv hNext
    obtain ⟨hMem, rfl⟩ := step_free hNext
    exact hInv.free hMem
  exact (run_invariant (RingInv p) hStep h hRun).reclaimed hNone

end Frees

section Allocations

variable {p} {s s' : State} {live : List Range} {pktSize : Nat}

theorem Laid.behind (h : Laid p s live) (hPos : 0 < aligned pktSize) (hTail : s.headPtr ≤ s.tailPtr)
    (hFits : aligned pktSize ≤ p.l2PktBuffSize - s.tailPtr) (hMay : s.tailPtr = s.headPtr → live = []) :
    Laid p (s.take pktSize) (live ++ [⟨s.tailPtr, aligned pktSize⟩]) := by
  cases h with
  | whole hCut hLive hEnd =>
    refine Laid.whole hCut (hLive.snoc hPos) ?_
    change s.tailPtr + aligned pktSize ≤ _
    omega
  | wrapped hCut hFirst hSome hEnd hSecond hBelow =>
    have hNone := hMay (Nat.le_antisymm hBelow hTail)
    exact absurd (List.append_eq_nil_iff.mp hNone).1 hSome

theorem Laid.between (h : Laid p s live) (hPos : 0 < aligned pktSize) (hTail : s.tailPtr < s.headPtr)
    (hFits : aligned pktSize ≤ s.headPtr - s.tailPtr) :
    Laid p (s.take pktSize) (live ++ [⟨s.tailPtr, aligned pktSize⟩]) := by
  cases h with
  | whole hCut hLive hEnd => exact absurd hLive.le (Nat.not_le_of_lt hTail)
  | wrapped hCut hFirst hSome hEnd hSecond hBelow =>
    rw [List.append_assoc]
    refine Laid.wrapped hCut hFirst hSome hEnd (hSecond.snoc hPos) ?_
    change s.tailPtr + aligned pktSize ≤ s.headPtr
    omega

theorem Laid.cut (h : Laid p s live) (hPos : 0 < aligned pktSize) (hTail : s.headPtr ≤ s.tailPtr)
    (hFits : aligned pktSize ≤ s.headPtr) (hMay : s.tailPtr = s.headPtr → live = []) (hSome : live ≠ []) :
    Laid p (s.cutAtTail.take pktSize) (live ++ [⟨0, aligned pktSize⟩]) := by
  cases h with
  | whole hCut hLive hEnd =>
    have hSecond : Chain 0 [⟨0, aligned pktSize⟩] (0 + aligned pktSize) := ⟨rfl, hPos, rfl⟩
    refine Laid.wrapped rfl hLive hSome hEnd hSecond ?_
    change 0 + aligned pktSize ≤ s.headPtr
    omega
  | wrapped hCut hFirst hFirstSome hEnd hSecond hBelow =>
    exact absurd (hMay (Nat.le_antisymm hBelow hTail)) hSome

theorem RingInv.allocate (h : RingInv p s) (hCond : NoEmptyCut p s (.allocate pktSize))
    (hNext : s.step p (.allocate pktSize) = some s') : RingInv p s' := by
  obtain ⟨live, hLaid, hAccounts⟩ := h.held
  obtain ⟨hPos, hResult⟩ := step_allocate hNext
  have hCase := allocatePktSpace_cases p s pktSize
  rw [hResult] at hCase
  cases hCase with
  | unchanged => exact h
  | behind hTail hFits hMay =>
    have hTaken := hLaid.behind hPos hTail hFits fun hSame => hAccounts.empty (hMay hSame)
    exact ⟨⟨_, hTaken, hAccounts.take hTaken.pairwise hPos⟩, h.head⟩
  | between hTail hFits =>
    have hTaken := hLaid.between hPos hTail hFits
    exact ⟨⟨_, hTaken, hAccounts.take hTaken.pairwise hPos⟩, h.head⟩
  | cut hTail hShort hFits hMay =>
    have hSome : live ≠ [] := by
      rintro rfl
      exact hCond ⟨hAccounts.inFlight, hShort, hFits⟩
    have hTaken := hLaid.cut hPos hTail hFits (fun hSame => hAccounts.empty (hMay hSame)) hSome
    exact ⟨⟨_, hTaken, hAccounts.cutAtTail.take hTaken.pairwise hPos⟩, h.head⟩

end Allocations

section EmptyCut

variable {p} {s s' : State} {live : List Range}

/-- The ring after it was cut while empty: the head has passed the place where the packets begin. -/
structure Stuck (p : Params) (s : State) (live : List Range) : Prop where
  chain : Chain 0 live s.tailPtr
  nonempty : live ≠ []
  tail_le : s.tailPtr ≤ s.headPtr
  head_le : s.headPtr ≤ p.l2PktBuffSize
  accounts : Accounts s live

theorem Stuck.placed (h : Stuck p s live) : Placed p s := by
  refine ⟨h.accounts.outstanding_apart, fun pkt hMem => ?_⟩
  have hBounds := h.chain.bounds _ (h.accounts.outstanding_live hMem)
  exact (hBounds.2.2.trans h.tail_le).trans h.head_le

theorem Stuck.freePktSpace_eq (h : Stuck p s live) {pkt : Packet} (hMem : pkt ∈ s.outstanding) :
    s.freePktSpace pkt = s.request pkt := by
  refine State.reclaim_of_none _ fun r hr => ?_
  have hParts := (h.accounts.request hMem).parts
  have hBounds := h.chain.bounds r (hParts.mem_iff.mp (List.mem_append_right _ hr))
  have hTail := h.tail_le
  change r.start ≠ s.headPtr
  omega

theorem Stuck.free (h : Stuck p s live) {pkt : Packet} (hMem : pkt ∈ s.outstanding) :
    Stuck p (s.freePktSpace pkt) live := by
  rw [h.freePktSpace_eq hMem]
  exact ⟨h.chain, h.nonempty, h.tail_le, h.head_le, h.accounts.request hMem⟩

theorem Stuck.allocate (h : Stuck p s live) {pktSize : Nat} (hNext : s.step p (.allocate pktSize) = some s') :
    ∃ live', Stuck p s' live' := by
  obtain ⟨hPos, hResult⟩ := step_allocate hNext
  have hCase := allocatePktSpace_cases p s pktSize
  rw [hResult] at hCase
  have hFull : s.headPtr ≤ s.tailPtr → ¬ (s.tailPtr = s.headPtr → s.inFlightPackets = 0) := fun hTail hMay =>
    h.nonempty (h.accounts.empty (hMay (Nat.le_antisymm h.tail_le hTail)))
  cases hCase with
  | unchanged => exact ⟨live, h⟩
  | behind hTail hFits hMay => exact absurd hMay (hFull hTail)
  | cut hTail hShort hFits hMay => exact absurd hMay (hFull hTail)
  | between hTail hFits =>
    have hChain := h.chain.snoc hPos
    refine ⟨_, hChain, List.append_ne_nil_of_right_ne_nil _ (List.cons_ne_nil _ _), ?_, h.head_le, ?_⟩
    · change s.tailPtr + aligned pktSize ≤ s.headPtr
      omega
    · exact h.accounts.take hChain.pairwise hPos

theorem Stuck.step {a : Action} (h : Stuck p s live) (hNext : s.step p a = some s') :
    ∃ live', Stuck p s' live' := by
  cases a with
  | allocate pktSize => exact h.allocate hNext
  | free pkt =>
    obtain ⟨hMem, rfl⟩ := step_free hNext
    exact ⟨live, h.free hMem⟩

theorem RingInv.stuck {pktSize : Nat} (h : RingInv p s) (hCond : ¬ NoEmptyCut p s (.allocate pktSize))
    (hNext : s.step p (.allocate pktSize) = some s') :
    s'.outstanding = [⟨0, pktSize⟩] ∧ ∃ live, Stuck p s' live := by
  obtain ⟨hZero, hShort, hFits⟩ := not_not.mp hCond
  obtain ⟨live, hLaid, hAccounts⟩ := h.held
  cases hAccounts.empty hZero
  obtain ⟨hSame, hEnd⟩ := hLaid.empty
  obtain ⟨hPos, hResult⟩ := step_allocate hNext
  have hCut : s.allocatePktSpace p pktSize = some (s.cutAtTail.take pktSize) := by
    unfold State.allocatePktSpace
    rw [if_pos (Or.inr ⟨hSame, hZero⟩), if_neg (Nat.not_le_of_lt hShort), if_pos hFits]
  rw [hCut, Option.getD_some] at hResult
  subst hResult
  have hNone := (List.append_eq_nil_iff.mp hAccounts.parts.eq_nil).1
  have hChain : Chain 0 [⟨0, aligned pktSize⟩] (0 + aligned pktSize) := ⟨rfl, hPos, rfl⟩
  refine ⟨?_, [⟨0, aligned pktSize⟩], hChain, List.cons_ne_nil _ _, ?_, ?_, ?_⟩
  · simp [State.take, State.cutAtTail, List.map_eq_nil_iff.mp hNone]
  · change 0 + aligned pktSize ≤ s.headPtr
    rwa [Nat.zero_add]
  · exact hSame ▸ hEnd
  · exact hAccounts.cutAtTail.take (List.pairwise_singleton _ _) hPos

theorem Stuck.not_reclaims {pkt : Packet} (h : Stuck p s live) (hOnly : s.outstanding = [pkt]) :
    ¬ Reclaims p s := by
  intro hReclaims
  have hMem : pkt ∈ s.outstanding := hOnly ▸ List.mem_singleton_self pkt
  have hRun : run (fun s pkt => s.step p (.free pkt)) s [pkt] = some (s.freePktSpace pkt) := by
    simp only [run, State.step, if_pos hMem, Option.bind_some]
  have hDone : (s.freePktSpace pkt).outstanding = [] := by
    rw [h.freePktSpace_eq hMem]
    simp [State.request, hOnly]
  have hStuck := h.free hMem
  exact hStuck.nonempty (hStuck.accounts.empty (hReclaims [pkt] _ hRun hDone).2)

theorem RingInv.step {a : Action} (h : RingInv p s) (hNext : s.step p a = some s') :
    RingInv p s' ∧ NoEmptyCut p s a ∨
      ¬ NoEmptyCut p s a ∧ (∃ live, Stuck p s' live) ∧ ¬ Reclaims p s' := by
  cases a with
  | free pkt =>
    obtain ⟨hMem, rfl⟩ := step_free hNext
    exact Or.inl ⟨h.free hMem, trivial⟩
  | allocate pktSize =>
    by_cases hCond : NoEmptyCut p s (.allocate pktSize)
    · exact Or.inl ⟨h.allocate hCond hNext, hCond⟩
    · obtain ⟨hOnly, live, hStuck⟩ := h.stuck hCond hNext
      exact Or.inr ⟨hCond, ⟨live, hStuck⟩, hStuck.not_reclaims hOnly⟩

end EmptyCut

section Runs

variable {p} {s s' : State}

theorem ringInv_init : RingInv p State.init := by
  have hLaid : Laid p State.init [] := Laid.whole rfl rfl (Nat.zero_le _)
  have hAccounts : Accounts State.init [] :=
    ⟨List.Pairwise.nil, List.forall_mem_nil _, List.Perm.refl _, rfl⟩
  exact ⟨⟨[], hLaid, hAccounts⟩, List.forall_mem_nil _⟩

/-- Once the ring was cut while empty, it is never empty again. -/
theorem Stuck.never_empty {live : List Range} {as : List Action} (h : Stuck p s live)
    (hRun : run (State.step p) s as = some s') : s'.inFlightPackets ≠ 0 := by
  have hStep : ∀ s a s', (∃ live, Stuck p s live) → s.step p a = some s' → ∃ live, Stuck p s' live := by
    rintro s a s' ⟨live, hStuck⟩ hNext
    exact hStuck.step hNext
  obtain ⟨live', hStuck⟩ := run_invariant (fun s => ∃ live, Stuck p s live) hStep ⟨live, h⟩ hRun
  exact fun hZero => hStuck.nonempty (hStuck.accounts.empty hZero)

/-- The packets are apart and inside the buffer in every run, also in one that cuts an empty ring. -/
theorem run_placed {as : List Action} (hRun : run (State.step p) State.init as = some s) : Placed p s := by
  have hStep : ∀ s a s', (RingInv p s ∨ ∃ live, Stuck p s live) → s.step p a = some s' →
      RingInv p s' ∨ ∃ live, Stuck p s' live := by
    rintro s a s' (hInv | ⟨live, hStuck⟩) hNext
    · exact (hInv.step hNext).imp And.left fun hCut => hCut.2.1
    · exact Or.inr (hStuck.step hNext)
  rcases run_invariant _ hStep (Or.inl ringInv_init) hRun with hInv | ⟨live, hStuck⟩
  · exact hInv.placed
  · exact hStuck.placed

end Runs

/-- The packets are apart, inside the buffer and all reclaimed once they are returned, at each point of a
run, if and only if no allocation cuts the ring while it is empty. -/
theorem ring_good_iff (as : List Action) :
    (∀ taken, taken <+: as → ∀ s, run (State.step p) State.init taken = some s → Good p s) ↔
      Along (State.step p) (NoEmptyCut p) State.init as := by
  have hStep : ∀ s a s', (Good p s → RingInv p s) → Good p s → s.step p a = some s' →
      (Good p s' → RingInv p s') ∧ (Good p s' ↔ NoEmptyCut p s a) := by
    intro s a s' hInv hGood hNext
    rcases (hInv hGood).step hNext with ⟨hRing, hCond⟩ | ⟨hCond, -, hNot⟩
    · exact ⟨fun _ => hRing, iff_of_true hRing.good hCond⟩
    · have hBad : ¬ Good p s' := fun hGood' => hNot hGood'.reclaims
      exact ⟨fun hGood' => absurd hGood' hBad, iff_of_false hBad hCond⟩
  exact along_iff hStep (fun _ => ringInv_init) ringInv_init.good as

def simParams : Params := ⟨512 * 1024, Nat.lt_of_sub_ne_zero (Nat.succ_ne_zero _)⟩

/-- Two packets are outstanding behind one whose space is never reclaimed. -/
theorem run_placed_afterCut :
    Placed simParams ⟨524288, 256, 524288, true, 3, [⟨0, 64⟩], [⟨64, 64⟩, ⟨128, 100⟩]⟩ :=
  run_placed (show run (State.step simParams) State.init
    [.allocate 524288, .free ⟨0, 524288⟩, .allocate 64, .free ⟨0, 64⟩, .allocate 64, .allocate 100] = some _ by
      decide +kernel)

/-- The whole buffer is used once. After that, a packet of 64 bytes stays in it for ever. -/
theorem packet_not_reclaimed :
    ¬ ∀ as s, run (State.step simParams) State.init as = some s →
      Placed simParams s ∧ (s.outstanding = [] → s.freeReqQueue = [] ∧ s.inFlightPackets = 0) := by
  intro h
  have hRun := h [.allocate 524288, .free ⟨0, 524288⟩, .allocate 64, .free ⟨0, 64⟩]
    ⟨524288, 64, 524288, true, 1, [⟨0, 64⟩], []⟩ (by decide +kernel)
  exact absurd (hRun.2 rfl).2 (by decide)

end FPsPIN.Simulator
