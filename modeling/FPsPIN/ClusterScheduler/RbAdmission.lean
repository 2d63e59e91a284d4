import FPsPIN.ClusterScheduler.RbInvariant
import FPsPIN.Lib.Run

/-!
# Admission and reclaim in cluster_rb

Runs of the block alone, with whatever requests arrive. With the tail below
the head, the test of data_fits subtracts the head from the tail and not the
tail from the head; the difference wraps, and every request is acknowledged.
With head and tail equal, the bound on the increment of the head is zero, so
the head of a full ring stays where it is until the last slot is free.
-/

namespace FPsPIN.ClusterRb

open CommonCells Ranges FPsPIN.Ring Run

variable {p : Params}

def roundedSize (p : Params) (bytes : Nat) : Nat := (bytes + p.memSlotSize - 1) / p.memSlotSize * p.memSlotSize

section Requests

variable (s : State p) (i : Input p) (live : List Range)

/-- The input as the registers see it: a request counts only if it is acknowledged. -/
def acknowledged : Input p := { i with allocValid := allocReady s i }

/-- Requests of at most the buffer, and frees of live allocations. -/
structure Legal : Prop where
  size : i.allocValid = true → i.allocSize.toNat ≤ p.buffMemLength
  free : i.freeValid = true → popRange i ∈ live

/-- A request is acknowledged if and only if it fits, and then it gets slots that are not in use. -/
structure Exact : Prop where
  admitted : i.allocValid = true → (allocReady s i = true ↔ roundedSize p i.allocSize.toNat ≤ freeSpace s)
  apart : allocReady s i = true → ∀ r ∈ live, Apart (pushRange s i) r

/-- A request that data_fits decides by the free space: with the tail below the head it fits between them, and it
is not an empty request to a full ring. -/
structure Decided : Prop where
  wrapped : i.allocValid = true → s.tailPtrQ < s.headPtrQ →
    roundedSize p i.allocSize.toNat ≤ (s.headPtrQ.val - s.tailPtrQ.val) * p.memSlotSize
  full : i.allocValid = true → equalFull s = true → i.allocSize ≠ 0

end Requests

section Step

variable {s : State p} {i : Input p} {live : List Range}

theorem pushSize_eq (hSize : i.allocSize.toNat ≤ p.buffMemLength) :
    pushSize i = (i.allocSize.toNat + p.memSlotSize - 1) / p.memSlotSize ∧ pushSize i ≤ p.numSlots := by
  have hPos := p.memSlotSize_pos
  have hSlots := p.numSlots_pos
  have hPow := p.two_pow_slotBits_succ
  have hCeil : (i.allocSize.toNat + p.memSlotSize - 1) / p.memSlotSize ≤ p.numSlots := by
    rw [Nat.div_le_iff_le_mul_add_pred hPos, Nat.mul_comm]
    rw [Params.buffMemLength] at hSize
    omega
  have hEq : pushSize i = (i.allocSize.toNat + p.memSlotSize - 1) / p.memSlotSize := Nat.mod_eq_of_lt (by omega)
  exact ⟨hEq, hEq ▸ hCeil⟩

theorem roundedSize_le_iff (hSize : i.allocSize.toNat ≤ p.buffMemLength) (n : Nat) :
    roundedSize p i.allocSize.toNat ≤ n * p.memSlotSize ↔ pushSize i ≤ n := by
  rw [roundedSize, ← (pushSize_eq hSize).1]
  exact Nat.mul_le_mul_right_iff p.memSlotSize_pos

theorem pushSize_eq_zero_iff (hSize : i.allocSize.toNat ≤ p.buffMemLength) : pushSize i = 0 ↔ i.allocSize = 0 := by
  have hPos := p.memSlotSize_pos
  rw [(pushSize_eq hSize).1, Nat.div_eq_zero_iff_lt hPos]
  constructor
  · intro hLt
    have hZero : i.allocSize.toNat = 0 := by omega
    exact BitVec.eq_of_toNat_eq (hZero.trans BitVec.toNat_zero.symm)
  · intro hZero
    have hNone : i.allocSize.toNat = 0 := (congrArg BitVec.toNat hZero).trans BitVec.toNat_zero
    omega

/-- With the tail below the head every request of at most the buffer passes the test. -/
theorem dataFits_of_wrapped (hOrder : s.tailPtrQ.val < s.headPtrQ.val) (hSize : i.allocSize.toNat ≤ p.buffMemLength) :
    dataFits s i = true := by
  have hHead := s.headPtrQ.isLt
  have hPow := p.two_pow_slotBits_succ
  have hLe := (pushSize_eq hSize).2
  have hFull : equalFull s = false := by
    rw [equalFull, beq_eq_false_iff_ne.mpr (fun hEq => Nat.lt_irrefl _ (hEq ▸ hOrder)), Bool.false_and]
  have hWrap : tailMinusHead s = s.tailPtrQ.val + 2 ^ (p.slotBits + 1) - s.headPtrQ.val :=
    Nat.mod_eq_of_lt (by omega)
  rw [dataFits, hFull, if_neg Bool.false_ne_true, if_neg (Nat.not_le_of_lt hOrder), hWrap]
  exact decide_eq_true (by omega)

theorem admitted_iff_decided (hSize : i.allocValid = true → i.allocSize.toNat ≤ p.buffMemLength) :
    (i.allocValid = true → (allocReady s i = true ↔ roundedSize p i.allocSize.toNat ≤ freeSpace s)) ↔
      Decided s i := by
  cases hValid : i.allocValid with
  | false =>
    constructor
    · intro _
      exact ⟨fun h => absurd (hValid.symm.trans h) Bool.false_ne_true,
        fun h => absurd (hValid.symm.trans h) Bool.false_ne_true⟩
    · intro _ h
      cases h
  | true =>
    have hBytes := hSize hValid
    have hReady : allocReady s i = dataFits s i := by rw [allocReady, pushEn, hValid, Bool.and_true]
    rw [freeSpace, roundedSize_le_iff hBytes, hReady]
    cases hFull : equalFull s with
    | true =>
      have hEq : s.headPtrQ = s.tailPtrQ := beq_iff_eq.mp (Bool.and_eq_true_iff.mp hFull).1
      rw [dataFits, freeSlots, hFull, if_pos rfl, if_pos rfl, Nat.le_zero, pushSize_eq_zero_iff hBytes]
      constructor
      · intro h
        exact ⟨fun _ hLt => absurd hLt (hEq ▸ Nat.lt_irrefl _),
          fun _ _ hZero => absurd ((h rfl).mpr hZero) Bool.false_ne_true⟩
      · intro h _
        exact ⟨fun h => absurd h Bool.false_ne_true, fun hZero => absurd hZero (h.full hValid hFull)⟩
    | false =>
      rcases Nat.lt_or_ge s.tailPtrQ.val s.headPtrQ.val with hOrder | hOrder
      · rw [dataFits_of_wrapped hOrder hBytes, freeSlots, hFull, if_neg Bool.false_ne_true,
          if_neg (Nat.not_le_of_lt hOrder)]
        constructor
        · intro h
          exact ⟨fun _ _ => (roundedSize_le_iff hBytes _).mpr ((h rfl).mp rfl),
            fun _ h => absurd (hFull.symm.trans h) Bool.false_ne_true⟩
        · intro h _
          exact ⟨fun _ => (roundedSize_le_iff hBytes _).mp (h.wrapped hValid hOrder), fun _ => rfl⟩
      · rw [dataFits, freeSlots, hFull, if_neg Bool.false_ne_true, if_neg Bool.false_ne_true, if_pos hOrder,
          if_pos hOrder, Bool.or_eq_true, decide_eq_true_iff, decide_eq_true_iff]
        constructor
        · intro _
          exact ⟨fun _ hLt => absurd hLt (Nat.not_lt_of_le hOrder),
            fun _ h => absurd (hFull.symm.trans h) Bool.false_ne_true⟩
        · intro _ _
          omega

theorem pushEn_acknowledged : pushEn s (acknowledged s i) = pushEn s i := by
  change (dataFits s i && (dataFits s i && i.allocValid)) = (dataFits s i && i.allocValid)
  rw [← Bool.and_assoc, Bool.and_self]

theorem step_acknowledged : step s (acknowledged s i) = step s i := by
  have hReset : resetsPtrs s (acknowledged s i) = resetsPtrs s i := by
    rw [resetsPtrs, pushEn_acknowledged]
    rfl
  have hBitmap : bitmapD s (acknowledged s i) = bitmapD s i := by
    funext j
    rw [bitmapD, pushEn_acknowledged]
    rfl
  have hHead : headPtrD s (acknowledged s i) = headPtrD s i := by rw [headPtrD, hReset, headPtrD]
  have hTail : tailPtrD s (acknowledged s i) = tailPtrD s i := by
    rw [tailPtrD, hReset, pushEn_acknowledged]
    rfl
  rw [step, hBitmap, hHead, hTail, step]

end Step

section Runs

variable (inputs : Nat → Input p)

def runAt : Nat → State p := stateAt step (init p) inputs

def liveAt : Nat → List Range
  | 0 => []
  | t + 1 => liveD (runAt inputs t) (acknowledged (runAt inputs t) (inputs t)) (liveAt t)

variable {inputs}

theorem run_inv {t : Nat}
    (hFits : ∀ u < t, Admissible (runAt inputs u) (acknowledged (runAt inputs u) (inputs u)) (liveAt inputs u)) :
    Inv (runAt inputs t) (liveAt inputs t) := by
  induction t with
  | zero => exact inv_init
  | succ t ih =>
    have hStep := (ih fun u hu => hFits u (Nat.lt_succ_of_lt hu)).step (hFits t (Nat.lt_succ_self t))
    rw [step_acknowledged] at hStep
    exact hStep

theorem Legal.admissible {s : State p} {i : Input p} {live : List Range} (hLegal : Legal i live)
    (hDecided : Decided s i) : Admissible s (acknowledged s i) live where
  fit hReady := by
    have hValid : i.allocValid = true := allocValid_of_pushEn hReady
    have hFit := ((admitted_iff_decided hLegal.size).mpr hDecided hValid).mp hReady
    rw [freeSpace, roundedSize_le_iff (hLegal.size hValid)] at hFit
    exact hFit
  free := hLegal.free

theorem Inv.exact {s : State p} {i : Input p} {live : List Range} (h : Inv s live) (hLegal : Legal i live)
    (hDecided : Decided s i) : Exact s i live where
  admitted := (admitted_iff_decided hLegal.size).mpr hDecided
  apart hReady := by
    intro r hr j hPush hj
    have hClear := h.pushEn_clear (hLegal.admissible hDecided) (pushEn_acknowledged.trans hReady) hPush
    exact absurd ((h.marks.covered hr hj).symm.trans hClear) (by decide)

/-- A run answers every request rightly exactly if every request is one that the test decides by the free space. -/
theorem admission_exact_iff (inputs : Nat → Input p) (hLegal : ∀ t, Legal (inputs t) (liveAt inputs t)) :
    (∀ t, Exact (runAt inputs t) (inputs t) (liveAt inputs t)) ↔ ∀ t, Decided (runAt inputs t) (inputs t) := by
  constructor
  · intro hExact t
    exact (admitted_iff_decided (hLegal t).size).mp (hExact t).admitted
  · intro hDecided t
    have hInv : Inv (runAt inputs t) (liveAt inputs t) :=
      run_inv fun u _ => (hLegal u).admissible (hDecided u)
    exact hInv.exact (hLegal t) (hDecided t)

theorem slotBytes_pos : 0 < 64 := Nat.succ_pos 63

def fourSlots : Params := ⟨2, 64, Nat.two_pos, slotBytes_pos⟩

/-- Two slots, one slot and, after the first two are free, one more: the tail is at the start, the head in the
middle. The request of the whole buffer in cycle 5 is acknowledged. -/
def overrun (t : Nat) : Input fourSlots where
  allocValid := t == 0 || t == 1 || t == 4 || t == 5
  allocSize := if t = 0 then 128 else if t = 5 then 256 else 64
  freeValid := t == 2
  freeIndex := 0
  freeSize := 128

theorem overrun_size (t : Nat) : (overrun t).allocSize.toNat ≤ fourSlots.buffMemLength := by
  change (if t = 0 then (128 : BitVec 9) else if t = 5 then 256 else 64).toNat ≤ 256
  split_ifs <;> decide

theorem overrun_legal (t : Nat) : Legal (overrun t) (liveAt overrun t) where
  size _ := overrun_size t
  free h := by
    obtain rfl : t = 2 := beq_iff_eq.mp h
    decide +kernel

theorem admission_not_exact :
    ¬ ∀ (p : Params) (inputs : Nat → Input p), (∀ t, Legal (inputs t) (liveAt inputs t)) →
      ∀ t, Exact (runAt inputs t) (inputs t) (liveAt inputs t) := by
  intro h
  have hExact := h fourSlots overrun overrun_legal 5
  have hReady : allocReady (runAt overrun 5) (overrun 5) = true := by decide +kernel
  exact absurd ((hExact.admitted (by decide)).mp hReady) (by decide +kernel)

def within (t : Nat) : Input fourSlots := { overrun t with allocValid := t == 0 || t == 1 || t == 4 }

theorem within_legal (t : Nat) : Legal (within t) (liveAt within t) where
  size _ := overrun_size t
  free h := by
    obtain rfl : t = 2 := beq_iff_eq.mp h
    decide +kernel

theorem within_decided (t : Nat) : Decided (runAt within t) (within t) := by
  have hCycles : (within t).allocValid = true → t = 0 ∨ t = 1 ∨ t = 4 := by
    intro hValid
    simpa [within, or_assoc] using hValid
  constructor
  · intro hValid
    rcases hCycles hValid with rfl | rfl | rfl <;> decide +kernel
  · intro hValid
    rcases hCycles hValid with rfl | rfl | rfl <;> decide +kernel

theorem admission_exact_iff_within :
    allocReady (runAt within 4) (within 4) = true ∧ ∀ t, Exact (runAt within t) (within t) (liveAt within t) :=
  ⟨by decide +kernel, (admission_exact_iff within within_legal).mpr within_decided⟩

end Runs

section Reclaim

variable {s : State p} {i : Input p} {live : List Range}

/-- The allocated slot next to the head in ring order is k steps away. -/
def FirstAllocated (s : State p) (k : Nat) : Prop :=
  s.bitmapQ (forward p.numSlots s.headPtrQ.val k) = true ∧
    ∀ j < k, s.bitmapQ (forward p.numSlots s.headPtrQ.val j) = false

def Reclaims (s : State p) (i : Input p) : Prop :=
  ∃ k, FirstAllocated s k ∧ (step s i).headPtrQ.val = forward p.numSlots s.headPtrQ.val k

theorem exists_firstAllocated (hSet : bitmapSet s = true) :
    FirstAllocated s (headPtrIncr s) ∧ headPtrIncr s < p.numSlots := by
  obtain ⟨j, hj, hBit⟩ := List.any_eq_true.mp hSet
  obtain ⟨hLt, hFound, hBefore⟩ := headPtrIncr_spec (List.mem_range.mp hj) hBit
  exact ⟨⟨hFound, hBefore⟩, hLt⟩

theorem FirstAllocated.unique {k k' : Nat} (h : FirstAllocated s k) (h' : FirstAllocated s k') : k = k' := by
  rcases Nat.lt_trichotomy k k' with hLt | hEq | hLt
  · exact absurd (h.1.symm.trans (h'.2 k hLt)) (by decide)
  · exact hEq
  · exact absurd (h'.1.symm.trans (h.2 k' hLt)) (by decide)

theorem resetsPtrs_of_set (hSet : bitmapSet s = true) : resetsPtrs s i = false := by
  rw [resetsPtrs, equalEmpty, hSet, Bool.not_true, Bool.and_false, Bool.and_false]

theorem reclaims_iff_incr (hSet : bitmapSet s = true) :
    Reclaims s i ↔ forward p.numSlots s.headPtrQ.val (headPtrIncrReal s) =
      forward p.numSlots s.headPtrQ.val (headPtrIncr s) := by
  have hNext : (step s i).headPtrQ.val = forward p.numSlots s.headPtrQ.val (headPtrIncrReal s) :=
    headPtrD_val (resetsPtrs_of_set hSet)
  obtain ⟨hFirst, _⟩ := exists_firstAllocated hSet
  constructor
  · rintro ⟨k, hk, hHead⟩
    rw [← hNext, hHead, hk.unique hFirst]
  · intro hEq
    exact ⟨_, hFirst, hNext.trans hEq⟩

theorem headPtrIncrReal_of_equal (hEq : s.headPtrQ = s.tailPtrQ) : headPtrIncrReal s = 0 := by
  have hLe := headPtrIncrReal_le_max (s := s)
  rw [hEq, offset_self, Nat.le_zero] at hLe
  exact hLe

/-- Apart from the tail, the head reaches the first allocated slot. -/
theorem Inv.headPtrIncrReal_eq (h : Inv s live) (hSet : bitmapSet s = true) (hNe : s.headPtrQ ≠ s.tailPtrQ) :
    headPtrIncrReal s = headPtrIncr s := by
  obtain ⟨hFirst, hLt⟩ := exists_firstAllocated hSet
  have hRing := h.ring hNe _ hFirst.1
  rw [offset_forward s.headPtrQ.isLt hLt] at hRing
  exact if_pos hRing

theorem Inv.reclaims_iff (h : Inv s live) (hSet : bitmapSet s = true) :
    Reclaims s i ↔ s.headPtrQ ≠ s.tailPtrQ ∨ s.bitmapQ s.headPtrQ.val = true := by
  obtain ⟨hFirst, hLt⟩ := exists_firstAllocated hSet
  have hHere : forward p.numSlots s.headPtrQ.val 0 = s.headPtrQ.val := Nat.mod_eq_of_lt s.headPtrQ.isLt
  rw [reclaims_iff_incr hSet]
  rcases Classical.em (s.headPtrQ = s.tailPtrQ) with hEq | hNe
  · rw [headPtrIncrReal_of_equal hEq, hHere]
    constructor
    · intro hHead
      exact Or.inr (hHead ▸ hFirst.1)
    · rintro (hNe | hBit)
      · exact absurd hEq hNe
      · have hZero : FirstAllocated s 0 := ⟨hHere.symm ▸ hBit, fun j hj => absurd hj (Nat.not_lt_zero j)⟩
        rw [hFirst.unique hZero, hHere]
  · rw [h.headPtrIncrReal_eq hSet hNe]
    exact ⟨fun _ => Or.inl hNe, fun _ => rfl⟩

/-- Nothing happens to the pointers of a full ring, and nothing is allocated, while a slot is allocated. -/
theorem full_stays (hFull : equalFull s = true) :
    (step s i).headPtrQ = s.headPtrQ ∧ (step s i).tailPtrQ = s.tailPtrQ ∧ freeSpace s = 0 ∧
      allocReady s i = false := by
  obtain ⟨hBeq, hSet⟩ := Bool.and_eq_true_iff.mp hFull
  have hEq : s.headPtrQ = s.tailPtrQ := beq_iff_eq.mp hBeq
  have hReset := resetsPtrs_of_set (i := i) hSet
  have hPush : pushEn s i = false := by rw [pushEn, dataFits, hFull, if_pos rfl, Bool.false_and]
  refine ⟨Fin.ext ?_, ?_, ?_, hPush⟩
  · refine (headPtrD_val hReset).trans ?_
    rw [headPtrIncrReal_of_equal hEq]
    exact Nat.mod_eq_of_lt s.headPtrQ.isLt
  · change tailPtrD s i = _
    rw [tailPtrD, hReset, hPush]
    rfl
  · rw [freeSpace, freeSlots, hFull, if_pos rfl, Nat.zero_mul]

end Reclaim

section ReclaimRuns

variable {inputs : Nat → Input p}

theorem admissible_acknowledged {s : State p} {i : Input p} {live : List Range} (h : Admissible s i live) :
    Admissible s (acknowledged s i) live :=
  ⟨fun hReady => h.fit (allocValid_of_pushEn hReady), h.free⟩

/-- A ring that has become full allocates nothing until its last slot is free. -/
theorem full_until_drained {t u : Nat} (htu : t ≤ u) (hFull : equalFull (runAt inputs t) = true)
    (hSet : ∀ v, t ≤ v → v ≤ u → bitmapSet (runAt inputs v) = true) :
    equalFull (runAt inputs u) = true ∧ freeSpace (runAt inputs u) = 0 := by
  obtain ⟨k, rfl⟩ := Nat.exists_eq_add_of_le htu
  induction k with
  | zero => exact ⟨hFull, (full_stays (i := inputs t) hFull).2.2.1⟩
  | succ k ih =>
    obtain ⟨hBefore, _⟩ := ih (Nat.le_add_right t k) fun v htv hvu => hSet v htv (by omega)
    obtain ⟨hHead, hTail, _⟩ := full_stays (i := inputs (t + k)) hBefore
    have hEq : (runAt inputs (t + k)).headPtrQ = (runAt inputs (t + k)).tailPtrQ :=
      beq_iff_eq.mp (Bool.and_eq_true_iff.mp hBefore).1
    have hNow : equalFull (runAt inputs (t + (k + 1))) = true := by
      refine Bool.and_eq_true_iff.mpr ⟨beq_iff_eq.mpr ?_, hSet _ htu (Nat.le_refl _)⟩
      exact (hHead.trans hEq).trans hTail.symm
    exact ⟨hNow, (full_stays (i := inputs (t + (k + 1))) hNow).2.2.1⟩

/-- The head follows the freed slots exactly if it differs from the tail or stands at an allocated slot already. -/
theorem head_reclaims_iff (inputs : Nat → Input p)
    (hFit : ∀ t, Admissible (runAt inputs t) (inputs t) (liveAt inputs t)) (t : Nat)
    (hSet : bitmapSet (runAt inputs t) = true) :
    Reclaims (runAt inputs t) (inputs t) ↔ (runAt inputs t).headPtrQ ≠ (runAt inputs t).tailPtrQ ∨
      (runAt inputs t).bitmapQ (runAt inputs t).headPtrQ.val = true := by
  have hInv : Inv (runAt inputs t) (liveAt inputs t) := run_inv fun u _ => admissible_acknowledged (hFit u)
  exact hInv.reclaims_iff hSet

def twoSlots : Params := ⟨1, 64, Nat.one_pos, slotBytes_pos⟩

/-- Both slots are allocated, then the first one is freed. -/
def firstFreed (t : Nat) : Input twoSlots where
  allocValid := t == 0 || t == 1
  allocSize := 64
  freeValid := t == 2
  freeIndex := 0
  freeSize := 64

theorem firstFreed_admissible (t : Nat) :
    Admissible (runAt firstFreed t) (firstFreed t) (liveAt firstFreed t) := by
  constructor
  · intro hValid
    obtain rfl | rfl : t = 0 ∨ t = 1 := by simpa [firstFreed] using hValid
    · decide +kernel
    · decide +kernel
  · intro hValid
    obtain rfl : t = 2 := beq_iff_eq.mp hValid
    decide +kernel

theorem head_reclaims_iff_firstFreed : Reclaims (runAt firstFreed 2) (firstFreed 2) :=
  (head_reclaims_iff firstFreed firstFreed_admissible 2 (by decide +kernel)).mpr (by decide +kernel)

theorem head_not_reclaiming :
    ¬ ∀ (p : Params) (inputs : Nat → Input p),
      (∀ t, Admissible (runAt inputs t) (inputs t) (liveAt inputs t)) →
        ∀ t, bitmapSet (runAt inputs t) = true → Reclaims (runAt inputs t) (inputs t) := by
  intro h
  have hInv : Inv (runAt firstFreed 3) (liveAt firstFreed 3) :=
    run_inv fun u _ => admissible_acknowledged (firstFreed_admissible u)
  have hSet : bitmapSet (runAt firstFreed 3) = true := by decide +kernel
  rcases (hInv.reclaims_iff hSet).mp (h twoSlots firstFreed firstFreed_admissible 3 hSet) with hNe | hBit
  · exact hNe (by decide +kernel)
  · exact absurd hBit (by decide +kernel)

end ReclaimRuns

end FPsPIN.ClusterRb
