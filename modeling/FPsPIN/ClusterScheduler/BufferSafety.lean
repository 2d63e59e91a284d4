import FPsPIN.ClusterScheduler.Scheduler

/-!
# Safety of the L1 packet buffer

A packet is live from the cycle in which its task is accepted to the one in
which its feedback is taken. If feedbacks only return live packets, the live
packets occupy disjoint slots, every accepted task really gets its slots, and
a feedback clears those of its packet and no others.
-/

namespace FPsPIN.ClusterScheduler

open Config Ranges Run
open ClusterRbShim (Packet toNat_narrow)

variable {p : Params}

/-- A packet as its task names it. -/
structure Live where
  pktPtr : PktPtr
  pktSize : MemSize
deriving DecidableEq

def Live.packet (p : Params) (x : Live) : Packet :=
  ⟨((x.pktPtr - p.l1PktBaseAddr).setWidth p.shim.idxWidth).toNat, x.pktSize.toNat⟩

/-- The ring buffer of a packet, and its slots there. -/
def Live.rb (p : Params) (x : Live) : Nat := (x.packet p).rb p.shim

def Live.range (p : Params) (x : Live) : Range := (x.packet p).range p.shim

def Live.occupies (p : Params) (x : Live) (r j : Nat) : Bool := (x.packet p).occupies p.shim r j

def returned (i : Input p) : Live := ⟨(hpuFeedbackArb i).pktPtr, (hpuFeedbackArb i).feedbackDescr.pktSize⟩

def accepted (s : State p) (i : Input p) : Live := ⟨l1PktPtr s i, i.taskDescr.pktSize⟩

def liveD (s : State p) (i : Input p) (live : List Live) : List Live :=
  (if feedbackNew i then live.erase (returned i) else live) ++ if taskNew s i then [accepted s i] else []

structure World (p : Params) where
  state : State p
  live : List Live

def worldAt (inputs : Nat → Input p) : Nat → World p :=
  stateAt (fun w i => ⟨step w.state i, liveD w.state i w.live⟩) ⟨init p, []⟩ inputs

def World.bit (w : World p) (r : Fin numRb) (j : Nat) : Bool := (w.state.herAlloc r).bitmapQ j

def Inv (w : World p) : Prop := ClusterRbShim.Inv w.state.herAlloc (w.live.map (Live.packet p))

section Step

variable {s : State p} {i : Input p} {live : List Live}

theorem idxWidth_le : p.shim.idxWidth ≤ 31 :=
  Nat.clog_le_of_le_pow p.l1PktBuffSize_lt.le

theorem index_of_ptr (base : BitVec 32) (idx : BitVec p.shim.idxWidth) :
    ((base + idx.setWidth 32) - base).setWidth p.shim.idxWidth = idx := by
  apply BitVec.eq_of_toNat_eq
  have hPow : 2 ^ p.shim.idxWidth ≤ 2 ^ 32 := Nat.pow_le_pow_right (by decide) (idxWidth_le.trans (by decide))
  rw [BitVec.add_comm, BitVec.add_sub_cancel, BitVec.toNat_setWidth, BitVec.toNat_setWidth,
    Nat.mod_eq_of_lt (Nat.lt_of_lt_of_le idx.isLt hPow), Nat.mod_eq_of_lt idx.isLt]

theorem pktSize_le (h : taskNew s i = true) : i.taskDescr.pktSize.toNat ≤ pktBuffFreeSpace s := by
  simp only [taskNew, taskReady, Bool.and_eq_true] at h
  exact of_decide_eq_true h.2.2

theorem packet_accepted (h : taskNew s i = true) :
    (accepted s i).packet p = ClusterRbShim.allocated s.herAlloc (herAllocInput s i) := by
  have hSize : (i.taskDescr.pktSize.setWidth (p.shim.idxWidth + 1)).toNat = i.taskDescr.pktSize.toNat :=
    toNat_narrow ((pktSize_le h).trans ((ClusterRbShim.freeSpace_le_rb _).trans p.shim.rb_le)) p.shim.buffMemLength_le
  rw [Live.packet, accepted, l1PktPtr, index_of_ptr, ← hSize]
  rfl

theorem packet_returned (h : ClusterRbShim.Inv s.herAlloc (live.map (Live.packet p))) (hMem : returned i ∈ live) :
    (returned i).packet p = ClusterRbShim.freed (herAllocInput s i) := by
  obtain ⟨_, _, hLe⟩ := h.inside _ (List.mem_map_of_mem hMem)
  have hSize : ((returned i).pktSize.setWidth (p.shim.idxWidth + 1)).toNat = (returned i).pktSize.toNat :=
    toNat_narrow (Nat.le_trans hLe p.shim.rb_le) p.shim.buffMemLength_le
  rw [Live.packet, ← hSize]
  rfl

theorem admissible (h : ClusterRbShim.Inv s.herAlloc (live.map (Live.packet p)))
    (hHonest : feedbackNew i = true → returned i ∈ live) :
    ClusterRbShim.Admissible s.herAlloc (herAllocInput s i) (live.map (Live.packet p)) where
  fit hValid := by
    have hSize : i.taskDescr.pktSize.toNat = (herAllocInput s i).allocSize.toNat :=
      congrArg Packet.size (packet_accepted hValid)
    rw [← hSize]
    exact pktSize_le hValid
  free hValid := by
    rw [← packet_returned h (hHonest hValid)]
    exact List.mem_map_of_mem (hHonest hValid)

theorem map_liveD (h : ClusterRbShim.Inv s.herAlloc (live.map (Live.packet p)))
    (hHonest : feedbackNew i = true → returned i ∈ live) :
    (ClusterRbShim.liveD s.herAlloc (herAllocInput s i) (live.map (Live.packet p))).Perm
      ((liveD s i live).map (Live.packet p)) := by
  have hFreed : (if feedbackNew i then
        (live.map (Live.packet p)).erase (ClusterRbShim.freed (herAllocInput s i)) else live.map (Live.packet p)).Perm
      ((if feedbackNew i then live.erase (returned i) else live).map (Live.packet p)) := by
    split_ifs with hNew
    · rw [← packet_returned h (hHonest hNew)]
      exact (ClusterRbShim.map_erase_perm (hHonest hNew) (Live.packet p)).symm
    · exact List.Perm.refl _
  have hAlloc : (if taskNew s i then [ClusterRbShim.allocated s.herAlloc (herAllocInput s i)] else []) =
      (if taskNew s i then [accepted s i] else []).map (Live.packet p) := by
    split_ifs with hNew
    · rw [← packet_accepted hNew]
      rfl
    · rfl
  rw [liveD, List.map_append, ← hAlloc]
  exact hFreed.append_right _

theorem Inv.step {w : World p} (h : Inv w) (hHonest : feedbackNew i = true → returned i ∈ w.live) :
    Inv ⟨step w.state i, liveD w.state i w.live⟩ :=
  (ClusterRbShim.Inv.step h (admissible h hHonest)).perm (map_liveD h hHonest)

end Step

section Runs

variable {inputs : Nat → Input p}

theorem run_inv (hHonest : ∀ t, feedbackNew (inputs t) = true → returned (inputs t) ∈ (worldAt inputs t).live)
    (t : Nat) :
    Inv (worldAt inputs t) := by
  induction t with
  | zero => exact ClusterRbShim.inv_init
  | succ t ih => exact ih.step (hHonest t)

end Runs

/-- Live packets start and fit in slots of their ring buffer, which are apart and marked in the bitmaps. -/
structure BufferSafe (w : World p) : Prop where
  start : ∀ x ∈ w.live, (x.packet p).index =
    x.rb p * p.shim.rb.buffMemLength + (x.range p).start * pktBuffMemSlotSize
  fits : ∀ x ∈ w.live, x.pktSize.toNat ≤ (x.range p).length * pktBuffMemSlotSize
  inside : ∀ x ∈ w.live, x.rb p < numRb ∧ (x.range p).start + (x.range p).length ≤ p.shim.rb.numSlots
  apart : w.live.Pairwise (fun x y => x.rb p = y.rb p → Apart (x.range p) (y.range p))
  marked : ∀ r j, w.bit r j = true ↔ ∃ x ∈ w.live, x.occupies p r.val j = true

/-- What a cycle does to a slot: a feedback clears the slots of its packet, a new task sets those of its own, and no
other slot changes. -/
structure SlotChange (w w' : World p) (i : Input p) (r : Fin numRb) (j : Nat) : Prop where
  freed : feedbackNew i = true → (returned i).occupies p r.val j = true → w.bit r j = true ∧ w'.bit r j = false
  allocated : taskNew w.state i = true → (accepted w.state i).occupies p r.val j = true →
    w.bit r j = false ∧ w'.bit r j = true
  kept : ¬ (feedbackNew i = true ∧ (returned i).occupies p r.val j = true) →
    ¬ (taskNew w.state i = true ∧ (accepted w.state i).occupies p r.val j = true) → w'.bit r j = w.bit r j

theorem pairwise_of_ranges {live : List Live}
    (h : ∀ x ∈ live, (ClusterRbShim.ranges p.shim (live.map (Live.packet p)) (x.rb p)).Pairwise Apart) :
    live.Pairwise (fun x y => x.rb p = y.rb p → Apart (x.range p) (y.range p)) := by
  refine List.pairwise_iff_forall_sublist.mpr (fun {x y} hSub hRb => ?_)
  have hRanges : ClusterRbShim.ranges p.shim ([x, y].map (Live.packet p)) (x.rb p) = [x.range p, y.range p] := by
    have hx : decide ((x.packet p).rb p.shim = x.rb p) = true := decide_eq_true rfl
    have hy : decide ((y.packet p).rb p.shim = x.rb p) = true := decide_eq_true hRb.symm
    simp only [ClusterRbShim.ranges, List.map_cons, List.map_nil, List.filter_cons, hx, hy, if_true, List.filter_nil]
    rfl
  have hPair := (h x (hSub.subset List.mem_cons_self)).sublist (((hSub.map (Live.packet p)).filter _).map _)
  change (ClusterRbShim.ranges p.shim ([x, y].map (Live.packet p)) (x.rb p)).Pairwise Apart at hPair
  rw [hRanges] at hPair
  exact (List.pairwise_cons.mp hPair).1 _ List.mem_cons_self

theorem Inv.rb_lt {w : World p} (h : Inv w) {x : Live} (hx : x ∈ w.live) : x.rb p < numRb := by
  obtain ⟨hIndex, _, _⟩ := h.inside _ (List.mem_map_of_mem hx)
  exact Nat.div_lt_of_lt_mul (by rw [Nat.mul_comm]; exact hIndex)

theorem Inv.safe {w : World p} (h : Inv w) : BufferSafe w where
  start x hx := ClusterRbShim.Inv.index_eq h (List.mem_map_of_mem hx)
  fits x hx := ClusterRbShim.le_slots_mul (h.inside _ (List.mem_map_of_mem hx)).2.2
  inside x hx := by
    refine ⟨h.rb_lt hx, (h.rb ⟨x.rb p, h.rb_lt hx⟩).inside (x.range p)
      (List.mem_map.mpr ⟨x.packet p, ?_, rfl⟩)⟩
    exact List.mem_filter.mpr ⟨List.mem_map_of_mem hx, decide_eq_true rfl⟩
  apart := pairwise_of_ranges (fun x hx => (h.rb ⟨x.rb p, h.rb_lt hx⟩).apart)
  marked r j := by
    rw [World.bit, ClusterRbShim.Inv.marked h r j]
    constructor
    · rintro ⟨_, hMem, hOccupies⟩
      obtain ⟨x, hx, rfl⟩ := List.mem_map.mp hMem
      exact ⟨x, hx, hOccupies⟩
    · rintro ⟨x, hx, hOccupies⟩
      exact ⟨_, List.mem_map_of_mem hx, hOccupies⟩

theorem Inv.bit_step {w : World p} {i : Input p} (h : Inv w) (hHonest : feedbackNew i = true → returned i ∈ w.live)
    (r : Fin numRb) (j : Nat) :
    (World.mk (ClusterScheduler.step w.state i) (liveD w.state i w.live)).bit r j =
      ((w.bit r j && !(feedbackNew i && (returned i).occupies p r.val j)) ||
        (taskNew w.state i && (accepted w.state i).occupies p r.val j)) := by
  refine (ClusterRbShim.Inv.bitmap_step h (admissible h hHonest) r j).trans ?_
  change (_ && !(feedbackNew i && _) || (taskNew w.state i && _)) = _
  congr 1
  · congr 2
    cases hNew : feedbackNew i with
    | false => rfl
    | true => rw [Live.occupies, packet_returned h (hHonest hNew)]
  · cases hNew : taskNew w.state i with
    | false => rfl
    | true => rw [Live.occupies, packet_accepted hNew]

theorem Inv.slotChange {w : World p} {i : Input p} (h : Inv w)
    (hHonest : feedbackNew i = true → returned i ∈ w.live) (r : Fin numRb) (j : Nat) :
    SlotChange w ⟨ClusterScheduler.step w.state i, liveD w.state i w.live⟩ i r j := by
  have hStep := h.bit_step hHonest r j
  have hSet : feedbackNew i = true → (returned i).occupies p r.val j = true → w.bit r j = true := fun hNew hj =>
    (h.safe.marked r j).mpr ⟨_, hHonest hNew, hj⟩
  have hClear : taskNew w.state i = true → (accepted w.state i).occupies p r.val j = true → w.bit r j = false :=
    fun hNew hj => by
      rw [Live.occupies, packet_accepted hNew] at hj
      exact ClusterRbShim.Inv.allocated_clear h (admissible h hHonest) hNew hj
  refine ⟨fun hNew hj => ⟨hSet hNew hj, ?_⟩, fun hNew hj => ⟨hClear hNew hj, ?_⟩, fun hFree hTask => ?_⟩
  · have hOther : (taskNew w.state i && (accepted w.state i).occupies p r.val j) = false := by
      refine Bool.eq_false_iff.mpr (fun hBoth => ?_)
      obtain ⟨hTask, hSlot⟩ := Bool.and_eq_true_iff.mp hBoth
      exact absurd ((hSet hNew hj).symm.trans (hClear hTask hSlot)) (by decide)
    rw [hStep, hNew, hj, hOther, Bool.and_self, Bool.not_true, Bool.and_false, Bool.or_false]
  · rw [hStep, hNew, hj, Bool.and_self, Bool.or_true]
  · rw [hStep, Bool.eq_false_iff.mpr (fun hBoth => hFree (Bool.and_eq_true_iff.mp hBoth)),
      Bool.eq_false_iff.mpr (fun hBoth => hTask (Bool.and_eq_true_iff.mp hBoth)), Bool.not_false, Bool.and_true,
      Bool.or_false]

/-- In every run in which feedbacks return live packets: live packets are apart and inside their ring buffer, the ring
buffer selected for an accepted packet makes the allocation, and each cycle frees exactly the slots of the packet
returned. -/
theorem buffer_safety (inputs : Nat → Input p)
    (hHonest : ∀ t, feedbackNew (inputs t) = true → returned (inputs t) ∈ (worldAt inputs t).live) (t : Nat) :
    BufferSafe (worldAt inputs t) ∧
      (taskNew (worldAt inputs t).state (inputs t) = true → (inputs t).taskDescr.pktSize ≠ 0 →
        pktAllocReady (worldAt inputs t).state (inputs t) = true) ∧
      ∀ r j, SlotChange (worldAt inputs t) (worldAt inputs (t + 1)) (inputs t) r j := by
  have hInv := run_inv hHonest t
  refine ⟨hInv.safe, fun hNew hSize => ?_, hInv.slotChange (hHonest t)⟩
  have hBytes : (inputs t).taskDescr.pktSize.toNat =
      (herAllocInput (worldAt inputs t).state (inputs t)).allocSize.toNat :=
    congrArg Packet.size (packet_accepted hNew)
  refine ClusterRbShim.Admissible.allocReady hInv (admissible hInv (hHonest t)) hNew ?_
  rw [← hBytes]
  exact Nat.pos_of_ne_zero (fun hZero => hSize (BitVec.eq_of_toNat_eq hZero))

section SmallBuffer

/-- The default buffer of 512 bytes: four ring buffers of two slots. -/
def smallBuffer : Params where
  numHersPerCluster := 4
  slotBits := 1
  l1ClusterBase := 0x10000000
  l1ClusterMemSize := 0x400000
  l1PktBuffOffset := 0x100
  clusterId := 1
  slotBits_pos := by decide
  l1PktBuffSize_lt := by decide

/-- Tasks with packets of 100 and 30 bytes in the first two cycles, and the feedback of the first one later on. -/
def outAndBack (t : Nat) : Input smallBuffer where
  taskValid := decide (t < 2)
  taskDescr :=
    { msgid := 0, handlerFun := 0, handlerFunSize := 0, handlerMemAddr := 0, handlerMemSize := 0, hostMemAddr := 0
      hostMemSize := 0, pktAddr := 0x1c100000, pktSize := if t = 0 then 100 else 30, triggerFeedback := true
      scratchpadAddr := fun _ => 0, scratchpadSize := fun _ => 0 }
  feedbackReady := true
  dmaXferReady := true
  dmaResp := false
  hpuTaskReady _ := true
  hpuFeedbackValid _ := t == 3
  hpuFeedback _ := ⟨⟨0x1c100000, 100, 0, true⟩, 0x10400100⟩
  hpuFeedbackIdx := ⟨0, by decide⟩

theorem outAndBack_honest (t : Nat) (h : feedbackNew (outAndBack t) = true) :
    returned (outAndBack t) ∈ (worldAt outAndBack t).live := by
  obtain ⟨_, hValid⟩ := of_decide_eq_true (Bool.and_eq_true_iff.mp h).1
  have ht : t = 3 := by simpa [outAndBack] using hValid
  subst ht
  decide +kernel

theorem buffer_safety_outAndBack :
    (worldAt outAndBack 3).live.length = 2 ∧ (worldAt outAndBack 4).live.length = 1 ∧
      BufferSafe (worldAt outAndBack 3) ∧
      ∀ r j, SlotChange (worldAt outAndBack 3) (worldAt outAndBack 4) (outAndBack 3) r j :=
  ⟨by decide +kernel, by decide +kernel, (buffer_safety outAndBack outAndBack_honest 3).1,
    (buffer_safety outAndBack outAndBack_honest 3).2.2⟩

end SmallBuffer

end FPsPIN.ClusterScheduler
