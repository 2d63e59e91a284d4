import FPsPIN.ClusterScheduler.RbInvariant

/-!
# The cluster_rb_shim block

Several ring buffers side by side. A request goes to the first one that
reports enough space; a free goes to the one its index lies in. Requests and
frees are narrowed to the width of a single buffer, which loses nothing for
packets that fit one.
-/

namespace FPsPIN.ClusterRbShim

open CommonCells Ranges

structure Params where
  numRb : Nat
  rb : ClusterRb.Params
  numRb_pos : 0 < numRb

namespace Params

variable (p : Params)

/-- Constant BuffMemLength; that of a ring buffer is its NumRB-th part. -/
def buffMemLength : Nat := p.numRb * p.rb.buffMemLength

theorem rb_le : p.rb.buffMemLength ≤ p.buffMemLength := Nat.le_mul_of_pos_left _ p.numRb_pos

/-- Width of elem_idx_t. -/
def idxWidth : Nat := Nat.clog 2 p.buffMemLength

theorem buffMemLength_le : p.buffMemLength ≤ 2 ^ p.idxWidth := Nat.le_pow_clog (by decide) _

end Params

abbrev State (p : Params) := Fin p.numRb → ClusterRb.State p.rb

structure Input (p : Params) where
  allocValid : Bool
  allocSize : BitVec (p.idxWidth + 1)
  freeValid : Bool
  freeIndex : BitVec p.idxWidth
  freeSize : BitVec (p.idxWidth + 1)

variable {p : Params}

def init (p : Params) : State p := fun _ => ClusterRb.init p.rb

section Combinational

variable (s : State p) (i : Input p)

def rbFreeSpace (j : Nat) : Nat := if h : j < p.numRb then ClusterRb.freeSpace (s ⟨j, h⟩) else 0

def rbWithSpace (j : Nat) : Bool := decide (j < p.numRb) && decide (i.allocSize.toNat ≤ rbFreeSpace s j)

/-- The first ring buffer that has enough space. -/
def selRbIdx : Fin p.numRb := ⟨lzcCnt p.numRb (rbWithSpace s i), lzcCnt_lt p.numRb_pos⟩

def rbInput (r : Fin p.numRb) : ClusterRb.Input p.rb where
  allocValid := decide (r = selRbIdx s i) && i.allocValid
  allocSize := i.allocSize.setWidth _
  freeValid := i.freeValid && decide (i.freeIndex.toNat / p.rb.buffMemLength = r.val)
  freeIndex := BitVec.ofNat _ (i.freeIndex.toNat % p.rb.buffMemLength)
  freeSize := i.freeSize.setWidth _

/-- The largest of the free spaces up to the given ring buffer. -/
def rbFreeSpaceTmpMax : Nat → Nat
  | 0 => rbFreeSpace s 0
  | j + 1 =>
    if rbFreeSpaceTmpMax j ≥ rbFreeSpace s (j + 1) then rbFreeSpaceTmpMax j else rbFreeSpace s (j + 1)

def freeSpace : Nat := rbFreeSpaceTmpMax s (p.numRb - 1)

def allocReady : Bool := ClusterRb.allocReady (s (selRbIdx s i)) (rbInput s i (selRbIdx s i))

def allocIndex : BitVec p.idxWidth :=
  BitVec.ofNat _ ((selRbIdx s i).val * p.rb.buffMemLength +
    ClusterRb.allocIndex (s (selRbIdx s i)) (rbInput s i (selRbIdx s i)))

def step : State p := fun r => ClusterRb.step (s r) (rbInput s i r)

end Combinational

structure Packet where
  index : Nat
  size : Nat
deriving DecidableEq

def Packet.rb (p : Params) (x : Packet) : Nat := x.index / p.rb.buffMemLength

def Packet.range (p : Params) (x : Packet) : Range :=
  ⟨x.index % p.rb.buffMemLength / p.rb.memSlotSize, ClusterRb.slots p.rb x.size⟩

def Packet.occupies (p : Params) (x : Packet) (r j : Nat) : Bool := decide (x.rb p = r ∧ (x.range p).Covers j)

def ranges (p : Params) (live : List Packet) (r : Nat) : List Range :=
  (live.filter (fun x => x.rb p = r)).map (Packet.range p)

theorem ranges_append (p : Params) (live live' : List Packet) (r : Nat) :
    ranges p (live ++ live') r = ranges p live r ++ ranges p live' r := by
  rw [ranges, List.filter_append, List.map_append]
  rfl

def freed (i : Input p) : Packet := ⟨i.freeIndex.toNat, i.freeSize.toNat⟩

def allocated (s : State p) (i : Input p) : Packet := ⟨(allocIndex s i).toNat, i.allocSize.toNat⟩

def liveD (s : State p) (i : Input p) (live : List Packet) : List Packet :=
  (if i.freeValid then live.erase (freed i) else live) ++ if i.allocValid then [allocated s i] else []

structure Inv (s : State p) (live : List Packet) : Prop where
  rb : ∀ r, ClusterRb.Inv (s r) (ranges p live r.val)
  inside : ∀ x ∈ live, x.index < p.buffMemLength ∧ x.index % p.rb.memSlotSize = 0 ∧
    x.size ≤ p.rb.buffMemLength

structure Admissible (s : State p) (i : Input p) (live : List Packet) : Prop where
  fit : i.allocValid = true → i.allocSize.toNat ≤ freeSpace s
  free : i.freeValid = true → freed i ∈ live

theorem Inv.perm {s : State p} {live live' : List Packet} (h : Inv s live) (hPerm : live.Perm live') :
    Inv s live' where
  rb r := (h.rb r).perm ((hPerm.filter _).map _)
  inside x hx := h.inside x (hPerm.mem_iff.mpr hx)

theorem inv_init : Inv (init p) [] where
  rb _ := ClusterRb.inv_init
  inside _ hx := absurd hx List.not_mem_nil

section Lists

variable {α β : Type*} [DecidableEq α] [DecidableEq β]

theorem filter_map_erase_perm {l : List α} {x : α} (hx : x ∈ l) (select : α → Bool) (f : α → β) :
    (((l.erase x).filter select).map f).Perm
      (if select x then ((l.filter select).map f).erase (f x) else (l.filter select).map f) := by
  have hPerm := ((List.perm_cons_erase hx).filter select).map f
  rw [List.filter_cons] at hPerm
  cases hSelect : select x with
  | false =>
    rw [hSelect, if_neg Bool.false_ne_true] at hPerm
    exact hPerm.symm
  | true =>
    rw [hSelect, if_pos rfl, List.map_cons] at hPerm
    have hMem : f x ∈ (l.filter select).map f :=
      List.mem_map.mpr ⟨x, List.mem_filter.mpr ⟨hx, hSelect⟩, rfl⟩
    exact List.Perm.cons_inv (hPerm.symm.trans (List.perm_cons_erase hMem))

theorem map_erase_perm {l : List α} {x : α} (hx : x ∈ l) (f : α → β) :
    ((l.erase x).map f).Perm ((l.map f).erase (f x)) := by
  simpa using filter_map_erase_perm hx (fun _ => true) f

end Lists

section Spaces

variable {s : State p} {i : Input p}

theorem freeSlots_le (s : ClusterRb.State p.rb) : ClusterRb.freeSlots s ≤ p.rb.numSlots := by
  have hHead := s.headPtrQ.isLt
  rw [ClusterRb.freeSlots]
  split_ifs <;> omega

theorem freeSpace_le (s : ClusterRb.State p.rb) : ClusterRb.freeSpace s ≤ p.rb.buffMemLength :=
  Nat.mul_le_mul_right _ (freeSlots_le s)

theorem slots_le {bytes count : Nat} (hBytes : bytes ≤ count * p.rb.memSlotSize) :
    ClusterRb.slots p.rb bytes ≤ count := by
  refine (Nat.mod_le _ _).trans ?_
  have hPos := p.rb.memSlotSize_pos
  rw [← Nat.lt_succ_iff, Nat.div_lt_iff_lt_mul hPos, Nat.succ_mul]
  omega

theorem exists_rbFreeSpace (s : State p) (n : Nat) : ∃ j ≤ n, rbFreeSpaceTmpMax s n = rbFreeSpace s j := by
  induction n with
  | zero => exact ⟨0, Nat.le_refl 0, rfl⟩
  | succ n ih =>
    obtain ⟨j, hj, hEq⟩ := ih
    rw [rbFreeSpaceTmpMax]
    split_ifs
    · exact ⟨j, Nat.le_succ_of_le hj, hEq⟩
    · exact ⟨n + 1, Nat.le_refl _, rfl⟩

theorem freeSpace_le_rb (s : State p) : freeSpace s ≤ p.rb.buffMemLength := by
  obtain ⟨j, _, hEq⟩ := exists_rbFreeSpace s (p.numRb - 1)
  rw [freeSpace, hEq, rbFreeSpace]
  split_ifs
  · exact freeSpace_le _
  · exact Nat.zero_le _

/-- If the largest free space is enough, so is that of the selected ring buffer. -/
theorem selected_space (h : i.allocSize.toNat ≤ freeSpace s) :
    i.allocSize.toNat ≤ ClusterRb.freeSpace (s (selRbIdx s i)) := by
  obtain ⟨j, hj, hEq⟩ := exists_rbFreeSpace s (p.numRb - 1)
  have hPos := p.numRb_pos
  have hLt : j < p.numRb := by omega
  have hSpace : rbWithSpace s i j = true := by
    rw [rbWithSpace, decide_eq_true hLt, decide_eq_true (hEq ▸ h)]
    rfl
  obtain ⟨hSelLt, hSel, _⟩ := lzcCnt_spec (rbWithSpace s i) hLt hSpace
  have hRb := of_decide_eq_true (Bool.and_eq_true_iff.mp hSel).2
  rw [rbFreeSpace, dif_pos hSelLt] at hRb
  exact hRb

theorem le_slots_mul {bytes : Nat} (hBytes : bytes ≤ p.rb.buffMemLength) :
    bytes ≤ ClusterRb.slots p.rb bytes * p.rb.memSlotSize := by
  have hSize := p.rb.memSlotSize_pos
  have hSlots := p.rb.numSlots_pos
  have hPow := p.rb.two_pow_slotBits_succ
  have hLe : (bytes + p.rb.memSlotSize - 1) / p.rb.memSlotSize ≤ p.rb.numSlots := by
    rw [← Nat.lt_succ_iff, Nat.div_lt_iff_lt_mul hSize, Nat.succ_mul]
    rw [ClusterRb.Params.buffMemLength] at hBytes
    omega
  rw [ClusterRb.slots, Nat.mod_eq_of_lt (by omega)]
  have hLt := Nat.lt_div_mul_add hSize (a := bytes + p.rb.memSlotSize - 1)
  omega

end Spaces

section Step

variable {s : State p} {i : Input p} {live : List Packet}

theorem toNat_narrow {w w' : Nat} {x : BitVec w} {bound : Nat} (hx : x.toNat ≤ bound) (hBound : bound ≤ 2 ^ w') :
    (x.setWidth (w' + 1)).toNat = x.toNat := by
  rw [BitVec.toNat_setWidth, Nat.mod_eq_of_lt]
  have hPow : 2 ^ (w' + 1) = 2 ^ w' * 2 := Nat.pow_succ 2 w'
  have hPos : 0 < 2 ^ w' := Nat.pow_pos (by decide)
  omega

theorem Admissible.allocSize_eq (h : Admissible s i live) (hValid : i.allocValid = true) :
    (rbInput s i (selRbIdx s i)).allocSize.toNat = i.allocSize.toNat :=
  toNat_narrow ((selected_space (h.fit hValid)).trans (freeSpace_le _)) p.rb.buffMemLength_le

theorem popRange_eq (h : Inv s live) (hAdmissible : Admissible s i live) (hValid : i.freeValid = true)
    (r : Fin p.numRb) : ClusterRb.popRange (rbInput s i r) = (freed i).range p := by
  obtain ⟨_, _, hSize⟩ := h.inside _ (hAdmissible.free hValid)
  have hRel : i.freeIndex.toNat % p.rb.buffMemLength < p.rb.buffMemLength := Nat.mod_lt _ p.rb.buffMemLength_pos
  have hSlot : i.freeIndex.toNat % p.rb.buffMemLength / p.rb.memSlotSize < p.rb.numSlots :=
    Nat.div_lt_of_lt_mul (by rw [Nat.mul_comm]; exact hRel)
  have hIdx : (ClusterRb.popIdx (rbInput s i r)).val =
      i.freeIndex.toNat % p.rb.buffMemLength / p.rb.memSlotSize := by
    change (BitVec.ofNat p.rb.idxWidth (i.freeIndex.toNat % p.rb.buffMemLength)).toNat / p.rb.memSlotSize %
      p.rb.numSlots = _
    rw [BitVec.toNat_ofNat, Nat.mod_eq_of_lt (Nat.lt_of_lt_of_le hRel p.rb.buffMemLength_le), Nat.mod_eq_of_lt hSlot]
  have hPop : ClusterRb.popSize (rbInput s i r) = ClusterRb.slots p.rb i.freeSize.toNat :=
    congrArg _ (toNat_narrow hSize p.rb.buffMemLength_le)
  rw [ClusterRb.popRange, hIdx, hPop]
  rfl

theorem rbInput_allocValid (s : State p) (i : Input p) (r : Fin p.numRb) :
    (rbInput s i r).allocValid = (decide (r = selRbIdx s i) && i.allocValid) := rfl

theorem rbInput_freeValid (s : State p) (i : Input p) (r : Fin p.numRb) :
    (rbInput s i r).freeValid = (i.freeValid && decide ((freed i).rb p = r.val)) := rfl

abbrev selSlot (s : State p) (i : Input p) : ClusterRb.Ptr p.rb :=
  ClusterRb.pushIdx (s (selRbIdx s i)) (rbInput s i (selRbIdx s i))

theorem slot_lt (slot : ClusterRb.Ptr p.rb) : slot.val * p.rb.memSlotSize < p.rb.buffMemLength :=
  Nat.mul_lt_mul_of_pos_right slot.isLt p.rb.memSlotSize_pos

theorem index_lt (r : Fin p.numRb) {x : Nat} (hx : x < p.rb.buffMemLength) :
    r.val * p.rb.buffMemLength + x < p.buffMemLength := by
  calc r.val * p.rb.buffMemLength + x < r.val * p.rb.buffMemLength + p.rb.buffMemLength := by omega
    _ = (r.val + 1) * p.rb.buffMemLength := (Nat.succ_mul _ _).symm
    _ ≤ p.numRb * p.rb.buffMemLength := Nat.mul_le_mul_right _ r.isLt

theorem Inv.index_eq (h : Inv s live) {x : Packet} (hx : x ∈ live) :
    x.index = x.rb p * p.rb.buffMemLength + (x.range p).start * p.rb.memSlotSize := by
  obtain ⟨_, hAligned, _⟩ := h.inside x hx
  have hRel : x.index % p.rb.buffMemLength % p.rb.memSlotSize = 0 := by
    rw [ClusterRb.Params.buffMemLength, Nat.mod_mod_of_dvd _ (Nat.dvd_mul_left _ _), hAligned]
  change x.index = x.index / p.rb.buffMemLength * p.rb.buffMemLength +
    x.index % p.rb.buffMemLength / p.rb.memSlotSize * p.rb.memSlotSize
  rw [Nat.div_mul_cancel (Nat.dvd_of_mod_eq_zero hRel), Nat.div_add_mod']

theorem allocated_index (s : State p) (i : Input p) :
    (allocated s i).index = (selRbIdx s i).val * p.rb.buffMemLength + (selSlot s i).val * p.rb.memSlotSize := by
  change (allocIndex s i).toNat = _
  rw [allocIndex, ClusterRb.allocIndex, BitVec.toNat_ofNat, Nat.mod_eq_of_lt]
  exact Nat.lt_of_lt_of_le (index_lt _ (slot_lt _)) p.buffMemLength_le

theorem allocated_rb (s : State p) (i : Input p) : (allocated s i).rb p = (selRbIdx s i).val := by
  rw [Packet.rb, allocated_index, Nat.mul_comm, Nat.mul_add_div p.rb.buffMemLength_pos, Nat.div_eq_of_lt (slot_lt _),
    Nat.add_zero]

theorem pushRange_eq (hAdmissible : Admissible s i live) (hValid : i.allocValid = true) :
    ClusterRb.pushRange (s (selRbIdx s i)) (rbInput s i (selRbIdx s i)) = (allocated s i).range p := by
  have hStart : (allocated s i).index % p.rb.buffMemLength / p.rb.memSlotSize = (selSlot s i).val := by
    rw [allocated_index, Nat.mul_comm, Nat.mul_add_mod, Nat.mod_eq_of_lt (slot_lt _),
      Nat.mul_div_cancel _ p.rb.memSlotSize_pos]
  rw [Packet.range, hStart, ClusterRb.pushRange, ClusterRb.pushSize, hAdmissible.allocSize_eq hValid]
  rfl

theorem Admissible.rb (h : Inv s live) (hAdmissible : Admissible s i live) (r : Fin p.numRb) :
    ClusterRb.Admissible (s r) (rbInput s i r) (ranges p live r.val) where
  fit hValid := by
    obtain ⟨hSel, hValid⟩ := Bool.and_eq_true_iff.mp hValid
    rw [of_decide_eq_true hSel, ClusterRb.pushSize, hAdmissible.allocSize_eq hValid]
    exact slots_le (selected_space (hAdmissible.fit hValid))
  free hValid := by
    obtain ⟨hValid, hRb⟩ := Bool.and_eq_true_iff.mp hValid
    rw [popRange_eq h hAdmissible hValid]
    exact List.mem_map.mpr ⟨_, List.mem_filter.mpr ⟨hAdmissible.free hValid, hRb⟩, rfl⟩

theorem ranges_liveD (h : Inv s live) (hAdmissible : Admissible s i live) (r : Fin p.numRb) :
    (ClusterRb.liveD (s r) (rbInput s i r) (ranges p live r.val)).Perm (ranges p (liveD s i live) r.val) := by
  have hFreed : (if (rbInput s i r).freeValid then
        (ranges p live r.val).erase (ClusterRb.popRange (rbInput s i r)) else ranges p live r.val).Perm
      (ranges p (if i.freeValid then live.erase (freed i) else live) r.val) := by
    rw [rbInput_freeValid]
    cases hValid : i.freeValid with
    | false => exact List.Perm.refl _
    | true =>
      rw [popRange_eq h hAdmissible hValid, Bool.true_and, if_pos rfl]
      exact (filter_map_erase_perm (hAdmissible.free hValid) (fun x => decide (x.rb p = r.val)) (Packet.range p)).symm
  have hAlloc : (if (rbInput s i r).allocValid then [ClusterRb.pushRange (s r) (rbInput s i r)] else []) =
      ranges p (if i.allocValid then [allocated s i] else []) r.val := by
    rw [rbInput_allocValid]
    cases hValid : i.allocValid with
    | false => rw [Bool.and_false]; rfl
    | true =>
      rw [Bool.and_true, if_pos rfl, ranges, List.filter_singleton, allocated_rb]
      by_cases hSel : r = selRbIdx s i
      · rw [hSel, decide_eq_true rfl, decide_eq_true rfl, if_pos rfl, pushRange_eq hAdmissible hValid]
        rfl
      · rw [decide_eq_false hSel, decide_eq_false (fun hVal => hSel (Fin.ext hVal.symm))]
        rfl
  rw [ClusterRb.liveD, hAlloc, liveD, ranges_append]
  exact hFreed.append_right _

theorem Inv.step (h : Inv s live) (hAdmissible : Admissible s i live) : Inv (step s i) (liveD s i live) where
  rb r := ((h.rb r).step (Admissible.rb h hAdmissible r)).perm (ranges_liveD h hAdmissible r)
  inside x hx := by
    rcases List.mem_append.mp hx with hx | hx
    · refine h.inside x ?_
      split_ifs at hx
      · exact List.mem_of_mem_erase hx
      · exact hx
    · split_ifs at hx with hValid
      · rw [List.mem_singleton.mp hx, allocated_index]
        refine ⟨index_lt _ (slot_lt _), ?_, (selected_space (hAdmissible.fit hValid)).trans (freeSpace_le _)⟩
        rw [ClusterRb.Params.buffMemLength, ← Nat.mul_assoc, ← Nat.add_mul, Nat.mul_mod_left]
      · cases hx

theorem Admissible.allocReady (h : Inv s live) (hAdmissible : Admissible s i live) (hValid : i.allocValid = true)
    (hPos : 0 < i.allocSize.toNat) : allocReady s i = true := by
  refine (Admissible.rb h hAdmissible (selRbIdx s i)).pushEn ?_ ?_
  · rw [rbInput_allocValid, decide_eq_true rfl, hValid]
    rfl
  · rw [ClusterRb.pushSize, hAdmissible.allocSize_eq hValid]
    have hBytes := le_slots_mul ((selected_space (hAdmissible.fit hValid)).trans (freeSpace_le _))
    exact Nat.pos_of_mul_pos_right (Nat.lt_of_lt_of_le hPos hBytes)

theorem Inv.bitmap_step (h : Inv s live) (hAdmissible : Admissible s i live) (r : Fin p.numRb) (j : Nat) :
    (ClusterRbShim.step s i r).bitmapQ j =
      (((s r).bitmapQ j && !(i.freeValid && (freed i).occupies p r.val j)) ||
        (i.allocValid && (allocated s i).occupies p r.val j)) := by
  change ClusterRb.bitmapD (s r) (rbInput s i r) j = _
  rw [(h.rb r).bitmapD_eq (Admissible.rb h hAdmissible r), rbInput_freeValid, rbInput_allocValid, Packet.occupies,
    Packet.occupies]
  congr 1
  · congr 2
    cases hValid : i.freeValid with
    | false => rfl
    | true => rw [popRange_eq h hAdmissible hValid, Bool.decide_and, Bool.true_and, Bool.true_and]
  · cases hValid : i.allocValid with
    | false => rw [Bool.and_false]; rfl
    | true =>
      rw [Bool.decide_and, allocated_rb, Bool.and_true, Bool.true_and]
      by_cases hSel : r = selRbIdx s i
      · rw [hSel, pushRange_eq hAdmissible hValid, decide_eq_true rfl, decide_eq_true rfl]
      · have hVal : ¬ (selRbIdx s i).val = r.val := fun hVal => hSel (Fin.ext hVal.symm)
        rw [decide_eq_false hSel, decide_eq_false hVal, Bool.false_and, Bool.false_and]

theorem Inv.marked (h : Inv s live) (r : Fin p.numRb) (j : Nat) :
    (s r).bitmapQ j = true ↔ ∃ x ∈ live, x.occupies p r.val j = true := by
  rw [(h.rb r).marks j, ranges]
  constructor
  · rintro ⟨_, hMem, hCovers⟩
    obtain ⟨x, hx, rfl⟩ := List.mem_map.mp hMem
    obtain ⟨hx, hRb⟩ := List.mem_filter.mp hx
    exact ⟨x, hx, decide_eq_true ⟨of_decide_eq_true hRb, hCovers⟩⟩
  · rintro ⟨x, hx, hOccupies⟩
    obtain ⟨hRb, hCovers⟩ := of_decide_eq_true hOccupies
    exact ⟨_, List.mem_map.mpr ⟨x, List.mem_filter.mpr ⟨hx, decide_eq_true hRb⟩, rfl⟩, hCovers⟩

theorem Inv.allocated_clear (h : Inv s live) (hAdmissible : Admissible s i live) (hValid : i.allocValid = true)
    {r : Fin p.numRb} {j : Nat} (hj : (allocated s i).occupies p r.val j = true) : (s r).bitmapQ j = false := by
  obtain ⟨hRb, hCovers⟩ := of_decide_eq_true hj
  have hSel : r = selRbIdx s i := by
    rw [allocated_rb] at hRb
    exact Fin.ext hRb.symm
  rw [← pushRange_eq hAdmissible hValid] at hCovers
  have hPos : 0 < ClusterRb.pushSize (rbInput s i (selRbIdx s i)) := by
    obtain ⟨hGe, hLt⟩ : (selSlot s i).val ≤ j ∧ j < (selSlot s i).val + ClusterRb.pushSize _ := hCovers
    omega
  have hRbAdmissible := Admissible.rb h hAdmissible (selRbIdx s i)
  have hRbValid : (rbInput s i (selRbIdx s i)).allocValid = true := by
    rw [rbInput_allocValid, decide_eq_true rfl, hValid]
    rfl
  rw [hSel]
  exact (h.rb _).pushEn_clear hRbAdmissible (hRbAdmissible.pushEn hRbValid hPos) hCovers

end Step

end FPsPIN.ClusterRbShim
