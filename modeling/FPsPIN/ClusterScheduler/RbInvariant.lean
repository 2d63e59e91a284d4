import FPsPIN.ClusterScheduler.ClusterRb

/-!
# The ring of cluster_rb

The bitmap marks the live ranges, and as long as head and tail differ all of
them lie between the two. So an allocation that fits the reported free space
takes clear slots and is always made, although the test of the block itself
accepts any size when the tail is below the head.
-/

namespace FPsPIN.ClusterRb

open CommonCells Ranges FPsPIN.Ring

variable {p : Params}

/-- The bitmap marks the live ranges, which are apart, and the pointers enclose them unless they are equal. -/
structure Inv (s : State p) (live : List Range) : Prop where
  marks : Marks s.bitmapQ live
  apart : live.Pairwise Apart
  inside : ∀ r ∈ live, r.start + r.length ≤ p.numSlots
  ring : s.headPtrQ ≠ s.tailPtrQ → ∀ j, s.bitmapQ j = true →
    offset p.numSlots s.headPtrQ.val j < offset p.numSlots s.headPtrQ.val s.tailPtrQ.val

theorem inv_init : Inv (init p) [] where
  marks j := by simp [init]
  apart := List.Pairwise.nil
  inside r hr := absurd hr List.not_mem_nil
  ring h := absurd rfl h

theorem Inv.perm {s : State p} {live live' : List Range} (h : Inv s live) (hPerm : live.Perm live') : Inv s live' where
  marks := h.marks.perm hPerm
  apart := pairwise_perm h.apart hPerm
  inside r hr := h.inside r (hPerm.mem_iff.mpr hr)
  ring := h.ring

section Step

variable {s : State p} {i : Input p} {live : List Range}

theorem Inv.lt (h : Inv s live) {j : Nat} (hj : s.bitmapQ j = true) : j < p.numSlots := by
  obtain ⟨r, hr, hCovers⟩ := (h.marks j).mp hj
  exact Nat.lt_of_lt_of_le hCovers.2 (h.inside r hr)

/-- Where an allocation that fits the free space goes: behind the tail, at the start, or up to the head. -/
theorem padding_cases (hFit : pushSize i ≤ freeSlots s) (hFull : equalFull s = false) :
    (s.headPtrQ.val ≤ s.tailPtrQ.val ∧ pushSize i ≤ p.numSlots - s.tailPtrQ.val ∧ padding s i = 0) ∨
      (s.headPtrQ.val ≤ s.tailPtrQ.val ∧ pushSize i ≤ s.headPtrQ.val ∧
        padding s i = p.numSlots - s.tailPtrQ.val) ∨
      (s.tailPtrQ.val < s.headPtrQ.val ∧ pushSize i ≤ s.headPtrQ.val - s.tailPtrQ.val ∧ padding s i = 0) := by
  rw [freeSlots, hFull, if_neg Bool.false_ne_true] at hFit
  rw [padding, hFull, if_neg Bool.false_ne_true]
  by_cases hOrder : s.headPtrQ.val ≤ s.tailPtrQ.val
  · rw [if_pos hOrder] at hFit ⊢
    by_cases hEnd : pushSize i ≤ p.numSlots - s.tailPtrQ.val
    · exact Or.inl ⟨hOrder, hEnd, if_pos hEnd⟩
    · have hStart : pushSize i ≤ s.headPtrQ.val := by omega
      exact Or.inr (Or.inl ⟨hOrder, hStart, by rw [if_neg hEnd, if_pos hStart]⟩)
  · rw [if_neg hOrder] at hFit ⊢
    exact Or.inr (Or.inr ⟨Nat.lt_of_not_le hOrder, hFit, rfl⟩)

/-- The room in the ring, counted from the tail, holds the padding and the allocation; the latter is contiguous. -/
theorem push_room (hFit : pushSize i ≤ freeSlots s) (hFull : equalFull s = false) :
    offset p.numSlots s.headPtrQ.val s.tailPtrQ.val + padding s i + pushSize i ≤ p.numSlots ∧
      (pushIdx s i).val + pushSize i ≤ p.numSlots := by
  have hHead := s.headPtrQ.isLt
  have hTail := s.tailPtrQ.isLt
  have hIdx : (pushIdx s i).val = forward p.numSlots s.tailPtrQ.val (padding s i) := rfl
  rcases padding_cases hFit hFull with ⟨hOrder, hSize, hPad⟩ | ⟨hOrder, hSize, hPad⟩ | ⟨hOrder, hSize, hPad⟩
  · rw [hIdx, hPad, forward_eq hTail (Nat.zero_le _), if_pos (by omega), offset, if_pos hOrder]
    omega
  · rw [hIdx, hPad, forward_eq hTail (Nat.sub_le _ _), if_neg (by omega), offset, if_pos hOrder]
    omega
  · rw [hIdx, hPad, forward_eq hTail (Nat.zero_le _), if_pos (by omega), offset, if_neg (by omega)]
    omega

theorem equalFull_of_fit (hFit : pushSize i ≤ freeSlots s) (hPos : 0 < pushSize i) : equalFull s = false := by
  cases hFull : equalFull s with
  | false => rfl
  | true =>
    rw [freeSlots, hFull, if_pos rfl] at hFit
    omega

theorem dataFits_of_fit (hFit : pushSize i ≤ freeSlots s) (hFull : equalFull s = false) : dataFits s i = true := by
  have hHead := s.headPtrQ.isLt
  have hPow := p.two_pow_slotBits_succ
  rw [dataFits, hFull, if_neg Bool.false_ne_true]
  rcases padding_cases hFit hFull with ⟨hOrder, hSize, _⟩ | ⟨hOrder, hSize, _⟩ | ⟨hOrder, hSize, _⟩
  · rw [if_pos hOrder, decide_eq_true hSize, Bool.true_or]
  · rw [if_pos hOrder, decide_eq_true hSize, Bool.or_true]
  · -- The difference wraps to more than any size.
    have hWrap : tailMinusHead s = s.tailPtrQ.val + 2 ^ (p.slotBits + 1) - s.headPtrQ.val :=
      Nat.mod_eq_of_lt (by omega)
    rw [if_neg (Nat.not_le_of_lt hOrder), hWrap]
    exact decide_eq_true (by omega)

theorem push_offset (hFit : pushSize i ≤ freeSlots s) (hFull : equalFull s = false) {j : Nat}
    (hj : (pushRange s i).Covers j) :
    offset p.numSlots s.headPtrQ.val j =
      offset p.numSlots s.headPtrQ.val s.tailPtrQ.val + padding s i + (j - (pushIdx s i).val) := by
  obtain ⟨hRoom, hEnd⟩ := push_room hFit hFull
  obtain ⟨hGe, hLt⟩ : (pushIdx s i).val ≤ j ∧ j < (pushIdx s i).val + pushSize i := hj
  have hPos : j = forward p.numSlots s.headPtrQ.val
      (offset p.numSlots s.headPtrQ.val s.tailPtrQ.val + padding s i + (j - (pushIdx s i).val)) := by
    rw [← forward_forward, ← forward_forward, forward_offset s.headPtrQ.isLt s.tailPtrQ.isLt]
    change j = forward _ (pushIdx s i).val _
    rw [forward, Nat.add_sub_cancel' hGe, Nat.mod_eq_of_lt (Nat.lt_of_lt_of_le hLt hEnd)]
  exact (congrArg _ hPos).trans (offset_forward s.headPtrQ.isLt (by omega))

theorem bitmapQ_of_not_set (h : bitmapSet s = false) {j : Nat} (hj : j < p.numSlots) : s.bitmapQ j = false :=
  Bool.eq_false_iff.mpr (List.any_eq_false.mp h j (List.mem_range.mpr hj))

theorem Inv.push_clear (h : Inv s live) (hFit : pushSize i ≤ freeSlots s) (hFull : equalFull s = false) {j : Nat}
    (hj : (pushRange s i).Covers j) : s.bitmapQ j = false := by
  have hOffset := push_offset hFit hFull hj
  cases hBit : s.bitmapQ j with
  | false => rfl
  | true =>
    by_cases hEq : s.headPtrQ = s.tailPtrQ
    · have hClear : bitmapSet s = false := by
        rw [equalFull, hEq, beq_self_eq_true, Bool.true_and] at hFull
        exact hFull
      exact absurd (hBit.symm.trans (bitmapQ_of_not_set hClear (h.lt hBit))) (by decide)
    · have hRing := h.ring hEq j hBit
      omega

theorem bitmapShifted_offset {j : Nat} (hLt : j < p.numSlots) :
    bitmapShifted s (offset p.numSlots s.headPtrQ.val j) = s.bitmapQ j := by
  rw [bitmapShifted, forward_offset s.headPtrQ.isLt hLt]

/-- With a slot allocated, the head would move to the first allocated slot from it on. -/
theorem headPtrIncr_spec {j : Nat} (hLt : j < p.numSlots) (hj : s.bitmapQ j = true) :
    headPtrIncr s < p.numSlots ∧ bitmapShifted s (headPtrIncr s) = true ∧
      ∀ k < headPtrIncr s, bitmapShifted s k = false := by
  have hShifted := (bitmapShifted_offset hLt).trans hj
  have hOffset := offset_lt s.headPtrQ.isLt hLt
  have hEmpty : lzcEmpty p.numSlots (bitmapShifted s) = false := by
    refine Bool.eq_false_iff.mpr (fun hEmpty => ?_)
    exact absurd (hShifted.symm.trans (lzcEmpty_eq_true.mp hEmpty _ hOffset)) (by decide)
  rw [headPtrIncr, hEmpty, Bool.toNat_false, Nat.add_zero]
  exact lzcCnt_spec (bitmapShifted s) hOffset hShifted

theorem Inv.headPtrIncr_le (h : Inv s live) {j : Nat} (hj : s.bitmapQ j = true) :
    headPtrIncr s ≤ offset p.numSlots s.headPtrQ.val j := by
  obtain ⟨_, _, hBefore⟩ := headPtrIncr_spec (h.lt hj) hj
  by_contra hLater
  have hClear := hBefore _ (Nat.lt_of_not_le hLater)
  rw [bitmapShifted_offset (h.lt hj), hj] at hClear
  cases hClear

theorem headPtrIncrReal_le_max : headPtrIncrReal s ≤ offset p.numSlots s.headPtrQ.val s.tailPtrQ.val := by
  change _ ≤ headPtrIncrMax s
  rw [headPtrIncrReal]
  split_ifs <;> omega

theorem headPtrIncrReal_le : headPtrIncrReal s ≤ headPtrIncr s := by
  rw [headPtrIncrReal]
  split_ifs <;> omega

/-- What a cycle may ask for: an allocation that fits the free space, and a live range to free. -/
structure Admissible (s : State p) (i : Input p) (live : List Range) : Prop where
  fit : i.allocValid = true → pushSize i ≤ freeSlots s
  free : i.freeValid = true → popRange i ∈ live

theorem equalFull_of_pushEn (h : pushEn s i = true) : equalFull s = false := by
  cases hFull : equalFull s with
  | false => rfl
  | true =>
    rw [pushEn, dataFits, hFull, if_pos rfl] at h
    cases h

theorem allocValid_of_pushEn (h : pushEn s i = true) : i.allocValid = true := (Bool.and_eq_true_iff.mp h).2

theorem Admissible.pushEn (h : Admissible s i live) (hValid : i.allocValid = true) (hPos : 0 < pushSize i) :
    pushEn s i = true :=
  Bool.and_eq_true_iff.mpr ⟨dataFits_of_fit (h.fit hValid) (equalFull_of_fit (h.fit hValid) hPos), hValid⟩

theorem Inv.pushEn_clear (h : Inv s live) (hAdmissible : Admissible s i live) (hPush : pushEn s i = true) {j : Nat}
    (hj : (pushRange s i).Covers j) : s.bitmapQ j = false :=
  h.push_clear (hAdmissible.fit (allocValid_of_pushEn hPush)) (equalFull_of_pushEn hPush) hj

theorem pushRange_inside (hAdmissible : Admissible s i live) (hValid : i.allocValid = true) :
    (pushRange s i).start + (pushRange s i).length ≤ p.numSlots := by
  change (pushIdx s i).val + pushSize i ≤ p.numSlots
  rcases Nat.eq_zero_or_pos (pushSize i) with hZero | hPos
  · rw [hZero]
    exact (pushIdx s i).isLt.le
  · exact (push_room (hAdmissible.fit hValid) (equalFull_of_fit (hAdmissible.fit hValid) hPos)).2

/-- The bitmap loses the slots freed and gains the slots allocated, and these are apart. -/
theorem Inv.bitmapD_eq (h : Inv s live) (hAdmissible : Admissible s i live) (j : Nat) :
    bitmapD s i j = ((s.bitmapQ j && !(i.freeValid && decide ((popRange i).Covers j))) ||
      (i.allocValid && decide ((pushRange s i).Covers j))) := by
  have hPush : (pushEn s i && decide ((pushRange s i).Covers j)) =
      (i.allocValid && decide ((pushRange s i).Covers j)) := by
    by_cases hCovers : (pushRange s i).Covers j
    · have hPos : 0 < pushSize i := by
        obtain ⟨hGe, hLt⟩ : (pushIdx s i).val ≤ j ∧ j < (pushIdx s i).val + pushSize i := hCovers
        omega
      cases hValid : i.allocValid with
      | false => rw [ClusterRb.pushEn, hValid, Bool.and_false]
      | true => rw [hAdmissible.pushEn hValid hPos]
    · rw [decide_eq_false hCovers, Bool.and_false, Bool.and_false]
  rw [bitmapD, hPush, popEn]
  by_cases hjPush : i.allocValid = true ∧ (pushRange s i).Covers j
  · obtain ⟨hValid, hCovers⟩ := hjPush
    have hEn : ClusterRb.pushEn s i = true := by
      rw [decide_eq_true hCovers, hValid, Bool.and_true] at hPush
      exact hPush
    have hLt : j < p.numSlots := Nat.lt_of_lt_of_le hCovers.2 (pushRange_inside hAdmissible hValid)
    rw [h.pushEn_clear hAdmissible hEn hCovers, hValid, decide_eq_true hCovers, decide_eq_true hLt]
    rfl
  · have hNoPush : (i.allocValid && decide ((pushRange s i).Covers j)) = false := by
      simpa using hjPush
    rw [hNoPush, Bool.false_or, Bool.or_false]
    by_cases hjPop : i.freeValid = true ∧ (popRange i).Covers j
    · have hBit := h.marks.covered (hAdmissible.free hjPop.1) hjPop.2
      rw [hBit, hjPop.1, decide_eq_true hjPop.2]
      cases decide (j < p.numSlots) <;> rfl
    · have hNoPop : (i.freeValid && decide ((popRange i).Covers j)) = false := by
        simpa using hjPop
      rw [hNoPop, Bool.xor_false, Bool.not_false, Bool.and_true]
      cases hBit : s.bitmapQ j with
      | false => rw [Bool.and_false]
      | true => rw [decide_eq_true (h.lt hBit), Bool.and_true]

def grown (s : State p) (i : Input p) : Nat := if pushEn s i then padding s i + pushSize i else 0

theorem headPtrD_val (hReset : resetsPtrs s i = false) :
    (headPtrD s i).val = forward p.numSlots s.headPtrQ.val (headPtrIncrReal s) := by
  rw [headPtrD, hReset, if_neg Bool.false_ne_true]
  rfl

theorem tailPtrD_val (hReset : resetsPtrs s i = false) :
    (tailPtrD s i).val = forward p.numSlots s.tailPtrQ.val (grown s i) := by
  rw [tailPtrD, hReset, if_neg Bool.false_ne_true, grown]
  cases pushEn s i with
  | false => exact (Nat.mod_eq_of_lt s.tailPtrQ.isLt).symm
  | true =>
    rw [if_pos rfl, if_pos rfl, forward, ← Nat.add_assoc]
    rfl

theorem Admissible.grown_le (h : Admissible s i live) :
    offset p.numSlots s.headPtrQ.val s.tailPtrQ.val + grown s i ≤ p.numSlots := by
  rw [grown]
  split_ifs with hPush
  · rw [← Nat.add_assoc]
    exact (push_room (h.fit (allocValid_of_pushEn hPush)) (equalFull_of_pushEn hPush)).1
  · exact (offset_lt s.headPtrQ.isLt s.tailPtrQ.isLt).le

theorem Inv.offset_lt_grown (h : Inv s live) (hMoves : pushEn s i = true ∨ s.headPtrQ ≠ s.tailPtrQ) {j : Nat}
    (hj : s.bitmapQ j = true) :
    offset p.numSlots s.headPtrQ.val j < offset p.numSlots s.headPtrQ.val s.tailPtrQ.val + grown s i := by
  by_cases hEq : s.headPtrQ = s.tailPtrQ
  · have hFull := equalFull_of_pushEn (hMoves.resolve_right (fun hNe => hNe hEq))
    rw [equalFull, hEq, beq_self_eq_true, Bool.true_and] at hFull
    exact absurd (hj.symm.trans (bitmapQ_of_not_set hFull (h.lt hj))) (by decide)
  · exact Nat.lt_add_right _ (h.ring hEq j hj)

theorem Inv.ring_step (h : Inv s live) (hAdmissible : Admissible s i live)
    (hNe : headPtrD s i ≠ tailPtrD s i) {j : Nat}
    (hj : bitmapD s i j = true) :
    offset p.numSlots (headPtrD s i).val j < offset p.numSlots (headPtrD s i).val (tailPtrD s i).val := by
  have hHead := s.headPtrQ.isLt
  have hReal := headPtrIncrReal_le_max (s := s)
  have hReset : resetsPtrs s i = false := by
    refine Bool.eq_false_iff.mpr (fun hReset => hNe ?_)
    rw [headPtrD, tailPtrD, hReset, if_pos rfl, if_pos rfl]
  have hVal : (headPtrD s i).val ≠ (tailPtrD s i).val := fun hEq => hNe (Fin.ext hEq)
  have hLt : j < p.numSlots := of_decide_eq_true (Bool.and_eq_true_iff.mp hj).1
  rw [headPtrD_val hReset, tailPtrD_val hReset] at hVal ⊢
  rw [h.bitmapD_eq hAdmissible, Bool.or_eq_true, Bool.and_eq_true, Bool.and_eq_true, decide_eq_true_iff] at hj
  rcases hj with ⟨hBit, _⟩ | ⟨hValid, hCovers⟩
  · have hMoves : pushEn s i = true ∨ s.headPtrQ ≠ s.tailPtrQ := by
      refine or_iff_not_imp_left.mpr (fun hPush hEq => hVal ?_)
      rw [hEq, offset_self, Nat.le_zero] at hReal
      rw [grown, if_neg hPush, hEq, hReal]
    exact between_step hHead s.tailPtrQ.isLt hLt hAdmissible.grown_le hReal
      (headPtrIncrReal_le.trans (h.headPtrIncr_le hBit)) (h.offset_lt_grown hMoves hBit) hVal
  · have hRange : (pushIdx s i).val ≤ j ∧ j < (pushIdx s i).val + pushSize i := hCovers
    have hPush := hAdmissible.pushEn hValid (by omega)
    have hOffset := push_offset (hAdmissible.fit hValid) (equalFull_of_pushEn hPush) hCovers
    have hGrown : grown s i = padding s i + pushSize i := by rw [grown, hPush, if_pos rfl]
    exact between_step hHead s.tailPtrQ.isLt hLt hAdmissible.grown_le hReal (by omega) (by omega) hVal

theorem Inv.marks_freed (h : Inv s live) (hAdmissible : Admissible s i live) :
    Marks (fun j => s.bitmapQ j && !(i.freeValid && decide ((popRange i).Covers j)))
      (if i.freeValid then live.erase (popRange i) else live) := by
  cases hFree : i.freeValid with
  | false => simpa using h.marks
  | true => simpa using h.marks.erase h.apart (hAdmissible.free hFree)

theorem Inv.step (h : Inv s live) (hAdmissible : Admissible s i live) : Inv (step s i) (liveD s i live) := by
  have hFreed := h.marks_freed hAdmissible
  have hSub : (if i.freeValid then live.erase (popRange i) else live).Sublist live := by
    split_ifs
    · exact List.erase_sublist
    · exact List.Sublist.refl _
  have hBitmap : (ClusterRb.step s i).bitmapQ = fun j =>
      ((s.bitmapQ j && !(i.freeValid && decide ((popRange i).Covers j))) ||
        (i.allocValid && decide ((pushRange s i).Covers j))) := funext (h.bitmapD_eq hAdmissible)
  refine ⟨?_, ?_, ?_, fun hNe j hj => h.ring_step hAdmissible hNe hj⟩
  · rw [hBitmap, liveD]
    cases hValid : i.allocValid with
    | false => simpa using hFreed
    | true => simpa using hFreed.append (pushRange s i)
  · rw [liveD]
    cases hValid : i.allocValid with
    | false => simpa using h.apart.sublist hSub
    | true =>
      refine hFreed.pairwise_append (h.apart.sublist hSub) (fun j hj => ?_)
      have hPush := hAdmissible.pushEn hValid (by
        obtain ⟨hGe, hEnd⟩ : (pushIdx s i).val ≤ j ∧ j < (pushIdx s i).val + pushSize i := hj
        omega)
      rw [h.pushEn_clear hAdmissible hPush hj, Bool.false_and]
  · intro r hr
    rcases List.mem_append.mp hr with hr | hr
    · exact h.inside r (hSub.subset hr)
    · split_ifs at hr with hValid
      · rw [List.mem_singleton.mp hr]
        exact pushRange_inside hAdmissible hValid
      · cases hr

end Step

end FPsPIN.ClusterRb
