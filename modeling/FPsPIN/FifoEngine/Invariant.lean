import Mathlib.Algebra.BigOperators.Fin
import Mathlib.Algebra.Order.BigOperators.Group.Finset
import Mathlib.Data.Finset.Card
import FPsPIN.Lib.LinkedQueues
import FPsPIN.FifoEngine.Model

/-!
# Cell ownership in the fifo_engine

Every cell belongs to at most one queue. The separation invariant lists the
cells of each queue from head to last; the usage bitmap marks exactly the
listed cells, and each occupation counter counts the static cells of its
queue. A cycle pops first and then pushes, although the source computes both
from the old registers.
-/

namespace FPsPIN.FifoEngine

open CommonCells LinkedQueues

variable {Elem : Type} {p : Params}

def pointers (s : State Elem p) : Pointers Nat (Fin p.numFifo) where
  next c := (s.cells c).next
  isLast c := (s.cells c).isLast
  head := s.fifoHead
  last := s.fifoLast
  empty := s.fifoEmpty

/-- A cycle seen on a family of lists: the pop, then the push of the given entry. -/
def stepQueues {Entry : Type} (i : Input Elem p) (x : Entry)
    (queues : Fin p.numFifo → List Entry) : Fin p.numFifo → List Entry := fun q =>
  (if i.pop && i.fifoPopId == q then (queues q).tail else queues q) ++
    (if i.push && i.fifoPushId == q then [x] else [])

structure Occupies (s : State Elem p) (cells : Fin p.numFifo → List Nat) : Prop where
  chains : Chains (pointers s) cells
  used : ∀ c, s.freeCells c = true ↔ ∃ q, c ∈ cells q
  bound : ∀ q, ∀ c ∈ cells q, c < p.totCells
  static : ∀ q, s.fifoStaticOccup q = (cells q).countP (fun c => decide (p.numCells ≤ c))
  quota : ∀ q, s.fifoStaticOccup q ≤ p.numStaticCellsPerFifo

theorem init_occupies (fifoData : Nat → Elem) (dataO : Elem) :
    Occupies (init p fifoData dataO) (fun _ => []) where
  chains := Chains.init (fun _ => rfl)
  used c := by simp [init]
  bound q c hc := by cases hc
  static q := rfl
  quota q := Nat.zero_le _

def usedStatic (s : State Elem p) : Finset Nat :=
  (Finset.Ico p.numCells p.totCells).filter fun c => s.freeCells c = true

theorem Occupies.card_usedStatic {s : State Elem p} {cells : Fin p.numFifo → List Nat} (h : Occupies s cells) :
    (usedStatic s).card = ∑ q, s.fifoStaticOccup q := by
  let owned : Fin p.numFifo → Finset Nat := fun q =>
    ((cells q).filter (fun c => decide (p.numCells ≤ c))).toFinset
  have hOwned : ∀ q c, c ∈ owned q ↔ c ∈ cells q ∧ p.numCells ≤ c := by simp [owned]
  have hUnion : usedStatic s = Finset.univ.biUnion owned := by
    ext c
    simp only [usedStatic, Finset.mem_filter, Finset.mem_Ico, Finset.mem_biUnion, Finset.mem_univ, true_and,
      hOwned, h.used c]
    constructor
    · rintro ⟨⟨hLow, _⟩, q, hc⟩
      exact ⟨q, hc, hLow⟩
    · rintro ⟨q, hc, hLow⟩
      exact ⟨⟨hLow, h.bound q c hc⟩, q, hc⟩
  have hDisjoint : ∀ q ∈ Finset.univ, ∀ r ∈ Finset.univ, q ≠ r → Disjoint (owned q) (owned r) := by
    intro q _ r _ hNe
    rw [Finset.disjoint_left]
    intro c hq hr
    exact h.chains.separate q r hNe c ((hOwned q c).mp hq).1 ((hOwned r c).mp hr).1
  rw [hUnion, Finset.card_biUnion hDisjoint]
  refine Finset.sum_congr rfl fun q _ => ?_
  rw [h.static, List.countP_eq_length_filter, List.toFinset_card_of_nodup ((h.chains.nodup q).filter _)]

theorem Occupies.exists_free_static {s : State Elem p} {cells : Fin p.numFifo → List Nat}
    (h : Occupies s cells) {q : Fin p.numFifo}
    (hq : s.fifoStaticOccup q < p.numStaticCellsPerFifo) :
    ∃ c < p.totStaticCells, s.freeCells (p.numCells + c) = false := by
  by_contra hNone
  push Not at hNone
  have hAll : usedStatic s = Finset.Ico p.numCells p.totCells := by
    refine Finset.filter_true_of_mem fun c hc => ?_
    obtain ⟨hLow, hHigh⟩ := Finset.mem_Ico.mp hc
    have hUsed := hNone (c - p.numCells) (by unfold Params.totCells at hHigh; omega)
    rw [Nat.add_sub_cancel' hLow] at hUsed
    exact Bool.not_eq_false _ ▸ hUsed
  have hSum : ∑ q, s.fifoStaticOccup q < ∑ _q : Fin p.numFifo, p.numStaticCellsPerFifo :=
    Finset.sum_lt_sum (fun q _ => h.quota q) ⟨q, Finset.mem_univ q, hq⟩
  rw [← h.card_usedStatic, hAll, Nat.card_Ico, Finset.sum_const, Finset.card_univ, Fintype.card_fin, smul_eq_mul,
    Params.totCells, Params.totStaticCells, Nat.mul_comm] at hSum
  omega

/-- The cell selected for a push to a queue not reported full is unused, and
static exactly when the queue is below its quota. -/
theorem Occupies.pushCell_spec {s : State Elem p} {cells : Fin p.numFifo → List Nat}
    (h : Occupies s cells) {i : Input Elem p} (hFull : fifoFull s i.fifoPushId = false) :
    s.freeCells (pushCellIdx s i) = false ∧ pushCellIdx s i < p.totCells ∧
      decide (p.numCells ≤ pushCellIdx s i) = pushingToStatic s i := by
  unfold pushCellIdx
  cases hPush : pushingToStatic s i with
  | true =>
    rw [if_pos rfl]
    obtain ⟨c, hc, hFree⟩ := h.exists_free_static (of_decide_eq_true hPush)
    obtain ⟨hLt, hBit, _⟩ := lzcCnt_spec (fun c => !s.freeCells (p.numCells + c)) hc
      (by simp [hFree])
    refine ⟨?_, ?_, ?_⟩
    · rw [freeStaticCellIdx, Nat.add_comm]
      simpa using hBit
    · exact Nat.add_lt_add_right hLt p.numCells
    · exact decide_eq_true (Nat.le_add_left _ _)
  | false =>
    rw [if_neg Bool.false_ne_true]
    have hOccup : s.fifoStaticOccup i.fifoPushId = p.numStaticCellsPerFifo :=
      Nat.le_antisymm (h.quota _) (Nat.le_of_not_lt (of_decide_eq_false hPush))
    have hSome : ¬ ∀ c < p.numCells, (!s.freeCells c) = false := by
      intro hAll
      rw [fifoFull, noFreeDynamicCells, lzcEmpty_eq_true.mpr hAll, hOccup] at hFull
      simp at hFull
    push Not at hSome
    obtain ⟨c, hc, hFree⟩ := hSome
    obtain ⟨hLt, hBit, _⟩ := lzcCnt_spec (fun c => !s.freeCells c) hc (by simpa using hFree)
    refine ⟨by simpa [freeDynamicCellIdx] using hBit, ?_, ?_⟩
    · exact Nat.lt_of_lt_of_le hLt (Nat.le_add_left _ _)
    · exact decide_eq_false (Nat.not_le_of_lt hLt)

theorem pointers_push (s : State Elem p) (i : Input Elem p) (hPush : i.push = true)
    (hPop : i.pop = false) :
    pointers (step s i) = (pointers s).push i.fifoPushId (pushCellIdx s i) := by
  have hOnly : replacesOnly s i = false := by simp [replacesOnly, hPop]
  cases hEmpty : s.fifoEmpty i.fifoPushId <;>
    simp only [pointers, step, Pointers.push, cellsD, fifoHeadD, fifoLastD, fifoEmptyD, hOnly, hPush,
      hPop, hEmpty, Bool.false_eq_true, Bool.and_true, Bool.and_false, if_true, if_false,
      Pointers.mk.injEq, and_true]
  all_goals constructor
  all_goals
    funext c
    simp only [Function.update_apply]
    split_ifs <;> simp_all

theorem pointers_pop (s : State Elem p) (i : Input Elem p) (hPush : i.push = false)
    (hPop : i.pop = true) : pointers (step s i) = (pointers s).pop i.fifoPopId := by
  have hOnly : replacesOnly s i = false := by simp [replacesOnly, hPush]
  simp only [pointers, step, Pointers.pop, cellsD, fifoHeadD, fifoLastD, fifoEmptyD, hOnly, hPush,
    hPop, Bool.false_eq_true, Bool.false_and, if_true, if_false]

/-- A simultaneous pop and push is the pop followed by the push; the branch for
a queue of length one replaces its only cell. -/
theorem pointers_pop_push (s : State Elem p) (i : Input Elem p) (hPush : i.push = true)
    (hPop : i.pop = true) (hNonempty : s.fifoEmpty i.fifoPopId = false) :
    pointers (step s i) =
      ((pointers s).pop i.fifoPopId).push i.fifoPushId (pushCellIdx s i) := by
  by_cases hSame : i.fifoPushId = i.fifoPopId
  · have hOnly : replacesOnly s i = (s.cells (s.fifoHead i.fifoPopId)).isLast := by
      simp [replacesOnly, hPush, hPop, hSame]
    cases hLast : (s.cells (s.fifoHead i.fifoPopId)).isLast
    all_goals
      rw [hLast] at hOnly
      simp only [pointers, step, Pointers.pop, Pointers.push, cellsD, fifoHeadD, fifoLastD, fifoEmptyD,
        hOnly, hPush, hPop, hSame, hLast, hNonempty, Function.update_self, Bool.false_eq_true,
        Bool.and_false, if_true, if_false, Pointers.mk.injEq]
    · refine ⟨?_, ?_, trivial, trivial, trivial⟩ <;> funext c <;> simp only [Function.update_apply] <;>
        split_ifs <;> simp_all
    · refine ⟨?_, ?_, ?_, trivial, ?_⟩ <;> funext c <;> simp only [Function.update_apply] <;>
        split_ifs <;> simp_all
  · have hOnly : replacesOnly s i = false := by simp [replacesOnly, hSame]
    cases hEmpty : s.fifoEmpty i.fifoPushId
    all_goals
      simp only [pointers, step, Pointers.pop, Pointers.push, cellsD, fifoHeadD, fifoLastD, fifoEmptyD,
        hOnly, hPush, hPop, hEmpty, Function.update_of_ne hSame, Bool.false_eq_true, Bool.and_true,
        Bool.and_false, if_true, if_false, Pointers.mk.injEq]
    · refine ⟨?_, ?_, trivial, trivial, trivial⟩ <;> funext c <;> simp only [Function.update_apply] <;>
        split_ifs <;> simp_all
    · refine ⟨?_, ?_, ?_, trivial, ?_⟩ <;> funext c <;> simp only [Function.update_apply] <;>
        split_ifs <;> simp_all

theorem pointers_idle (s : State Elem p) (i : Input Elem p) (hPush : i.push = false)
    (hPop : i.pop = false) : pointers (step s i) = pointers s := by
  have hOnly : replacesOnly s i = false := by simp [replacesOnly, hPush]
  simp only [pointers, step, cellsD, fifoHeadD, fifoLastD, fifoEmptyD, hOnly, hPush, hPop,
    Bool.false_eq_true, Bool.false_and, if_false]

section Family

variable {Entry : Type} (i : Input Elem p) (x : Entry) (queues : Fin p.numFifo → List Entry)

theorem stepQueues_idle (hPush : i.push = false) (hPop : i.pop = false) :
    stepQueues i x queues = queues := by
  funext q
  simp [stepQueues, hPush, hPop]

theorem stepQueues_pop (hPush : i.push = false) (hPop : i.pop = true) :
    stepQueues i x queues =
      Function.update queues i.fifoPopId (queues i.fifoPopId).tail := by
  funext q
  by_cases hq : q = i.fifoPopId
  · subst q
    simp [stepQueues, hPush, hPop]
  · simp [stepQueues, hPush, hPop, Function.update_of_ne hq, Ne.symm hq]

theorem stepQueues_push (hPush : i.push = true) (hPop : i.pop = false) :
    stepQueues i x queues =
      Function.update queues i.fifoPushId (queues i.fifoPushId ++ [x]) := by
  funext q
  by_cases hq : q = i.fifoPushId
  · subst q
    simp [stepQueues, hPush, hPop]
  · simp [stepQueues, hPush, hPop, Function.update_of_ne hq, Ne.symm hq]

theorem stepQueues_pop_push (hPush : i.push = true) (hPop : i.pop = true) :
    stepQueues i x queues =
      Function.update (Function.update queues i.fifoPopId (queues i.fifoPopId).tail) i.fifoPushId
        (Function.update queues i.fifoPopId (queues i.fifoPopId).tail i.fifoPushId ++ [x]) := by
  funext q
  simp only [stepQueues, hPush, hPop, Bool.true_and, beq_iff_eq, Function.update_apply]
  by_cases hPushId : i.fifoPushId = q <;> by_cases hPopId : i.fifoPopId = q
  all_goals grind

end Family

/-- Cycles the users of the engine may ask for. -/
structure Legal (s : State Elem p) (i : Input Elem p) : Prop where
  push : i.push = true → fifoFull s i.fifoPushId = false
  pop : i.pop = true → s.fifoEmpty i.fifoPopId = false

theorem Occupies.head_cons {s : State Elem p} {cells : Fin p.numFifo → List Nat}
    (h : Occupies s cells) {q : Fin p.numFifo} (hq : s.fifoEmpty q = false) :
    cells q = s.fifoHead q :: (cells q).tail := by
  have hEmpty := h.chains.empty q
  change s.fifoEmpty q = _ at hEmpty
  rw [hq] at hEmpty
  cases hCells : cells q with
  | nil => simp [hCells] at hEmpty
  | cons c rest =>
    have hHead := h.chains.head q c rest hCells
    change s.fifoHead q = c at hHead
    rw [hHead, List.tail_cons]

theorem Occupies.pushCell_fresh {s : State Elem p} {cells : Fin p.numFifo → List Nat}
    (h : Occupies s cells) {i : Input Elem p} (hFull : fifoFull s i.fifoPushId = false)
    (q : Fin p.numFifo) : pushCellIdx s i ∉ cells q := by
  intro hMem
  have hUsed := (h.used (pushCellIdx s i)).mpr ⟨q, hMem⟩
  rw [(h.pushCell_spec hFull).1] at hUsed
  cases hUsed

theorem Occupies.step_chains {s : State Elem p} {cells : Fin p.numFifo → List Nat}
    (h : Occupies s cells) {i : Input Elem p} (hLegal : Legal s i) :
    Chains (pointers (step s i)) (stepQueues i (pushCellIdx s i) cells) := by
  have hPopped : i.pop = true → Chains ((pointers s).pop i.fifoPopId)
      (Function.update cells i.fifoPopId (cells i.fifoPopId).tail) := fun hPop =>
    h.chains.pop (h.head_cons (hLegal.pop hPop))
  cases hPush : i.push <;> cases hPop : i.pop
  · rw [pointers_idle s i hPush hPop, stepQueues_idle i _ cells hPush hPop]
    exact h.chains
  · rw [pointers_pop s i hPush hPop, stepQueues_pop i _ cells hPush hPop]
    exact hPopped hPop
  · rw [pointers_push s i hPush hPop, stepQueues_push i _ cells hPush hPop]
    exact h.chains.push (h.pushCell_fresh (hLegal.push hPush))
  · rw [pointers_pop_push s i hPush hPop (hLegal.pop hPop), stepQueues_pop_push i _ cells hPush hPop]
    refine (hPopped hPop).push (fun q hMem => h.pushCell_fresh (hLegal.push hPush) q ?_)
    by_cases hq : q = i.fifoPopId
    · subst q
      rw [Function.update_self] at hMem
      exact List.mem_of_mem_tail hMem
    · rwa [Function.update_of_ne hq] at hMem

theorem mem_stepQueues {Entry : Type} {i : Input Elem p} {x y : Entry}
    {queues : Fin p.numFifo → List Entry} {q : Fin p.numFifo} :
    y ∈ stepQueues i x queues q ↔
      (y ∈ if i.pop && i.fifoPopId == q then (queues q).tail else queues q) ∨
        (i.push = true ∧ i.fifoPushId = q ∧ y = x) := by
  rw [stepQueues, List.mem_append]
  apply or_congr_right
  by_cases hPush : i.push = true <;> by_cases hq : i.fifoPushId = q <;> simp [hPush, hq]

theorem Occupies.mem_popped {s : State Elem p} {cells : Fin p.numFifo → List Nat}
    (h : Occupies s cells) {i : Input Elem p} (hLegal : Legal s i) (q : Fin p.numFifo) (c : Nat) :
    (c ∈ if i.pop && i.fifoPopId == q then (cells q).tail else cells q) ↔
      c ∈ cells q ∧ ¬(i.pop = true ∧ c = s.fifoHead i.fifoPopId) := by
  by_cases hPop : i.pop = true
  · have hCons := h.head_cons (hLegal.pop hPop)
    have hNodup := h.chains.nodup i.fifoPopId
    rw [hCons, List.nodup_cons] at hNodup
    by_cases hq : i.fifoPopId = q
    · subst q
      have hMem : ∀ d, d ∈ cells i.fifoPopId ↔ d = s.fifoHead i.fifoPopId ∨ d ∈ (cells i.fifoPopId).tail :=
        fun d => by rw [hCons]; simp
      simp only [hPop, Bool.true_and, BEq.rfl, if_true, hMem]
      constructor
      · intro hc
        exact ⟨Or.inr hc, fun hEq => hNodup.1 (hEq.2 ▸ hc)⟩
      · rintro ⟨rfl | hc, hne⟩
        · exact absurd ⟨trivial, rfl⟩ hne
        · exact hc
    · have hHead : s.fifoHead i.fifoPopId ∈ cells i.fifoPopId := by
        rw [hCons]
        exact List.mem_cons_self
      simp only [hPop, hq, Bool.true_and, beq_iff_eq, if_false, true_and, iff_self_and]
      rintro hc rfl
      exact h.chains.separate _ _ hq _ hHead hc
  · simp [hPop]

theorem Occupies.step_used {s : State Elem p} {cells : Fin p.numFifo → List Nat}
    (h : Occupies s cells) {i : Input Elem p} (hLegal : Legal s i) (c : Nat) :
    (step s i).freeCells c = true ↔ ∃ q, c ∈ stepQueues i (pushCellIdx s i) cells q := by
  have hHead : i.pop = true → s.freeCells (s.fifoHead i.fifoPopId) = true := fun hPop =>
    (h.used _).mpr ⟨i.fifoPopId, by rw [h.head_cons (hLegal.pop hPop)]; exact List.mem_cons_self⟩
  have hFresh : i.push = true → s.freeCells (pushCellIdx s i) = false := fun hPush =>
    (h.pushCell_spec (hLegal.push hPush)).1
  have hBit : (step s i).freeCells c = true ↔
      (s.freeCells c = true ∧ ¬(i.pop = true ∧ c = s.fifoHead i.fifoPopId)) ∨
        (i.push = true ∧ c = pushCellIdx s i) := by
    change freeCellsD s i c = true ↔ _
    simp only [freeCellsD]
    cases hPush : i.push <;> cases hPop : i.pop <;>
      simp only [Bool.false_eq_true, if_false, if_true, Function.update_apply] <;> grind
  rw [hBit, h.used c]
  simp only [mem_stepQueues, h.mem_popped hLegal]
  constructor
  · rintro (⟨⟨q, hq⟩, hne⟩ | ⟨hPush, hc⟩)
    · exact ⟨q, Or.inl ⟨hq, hne⟩⟩
    · exact ⟨i.fifoPushId, Or.inr ⟨hPush, rfl, hc⟩⟩
  · rintro ⟨q, ⟨hq, hne⟩ | ⟨hPush, _, hc⟩⟩
    · exact Or.inl ⟨⟨q, hq⟩, hne⟩
    · exact Or.inr ⟨hPush, hc⟩

theorem fifoStaticOccupD_eq (s : State Elem p) (i : Input Elem p) (q : Fin p.numFifo) :
    fifoStaticOccupD s i q =
      s.fifoStaticOccup q + (if i.push ∧ i.fifoPushId = q ∧ pushingToStatic s i then 1 else 0) -
        (if i.pop ∧ i.fifoPopId = q ∧ poppingFromStatic s i then 1 else 0) := by
  cases hPush : i.push <;> cases hPop : i.pop <;> cases hIn : pushingToStatic s i <;>
    cases hOut : poppingFromStatic s i <;> by_cases hSame : i.fifoPushId = i.fifoPopId <;>
    simp only [fifoStaticOccupD, hPush, hPop, hIn, hOut, hSame] <;> grind

theorem Occupies.step_static {s : State Elem p} {cells : Fin p.numFifo → List Nat}
    (h : Occupies s cells) {i : Input Elem p} (hLegal : Legal s i) (q : Fin p.numFifo) :
    (step s i).fifoStaticOccup q =
      (stepQueues i (pushCellIdx s i) cells q).countP (fun c => decide (p.numCells ≤ c)) := by
  change fifoStaticOccupD s i q = _
  rw [fifoStaticOccupD_eq, stepQueues, List.countP_append, h.static q]
  have hPushed : (if i.push && i.fifoPushId == q then [pushCellIdx s i] else []).countP
      (fun c => decide (p.numCells ≤ c)) =
      if i.push ∧ i.fifoPushId = q ∧ pushingToStatic s i then 1 else 0 := by
    by_cases hPush : i.push = true
    · rw [← (h.pushCell_spec (hLegal.push hPush)).2.2]
      by_cases hq : i.fifoPushId = q <;> by_cases hc : p.numCells ≤ pushCellIdx s i <;>
        simp [hPush, hq, hc]
    · simp [hPush]
  rw [hPushed]
  by_cases hPop : i.pop = true ∧ i.fifoPopId = q
  · obtain ⟨hPop, rfl⟩ := hPop
    have hCount : (cells i.fifoPopId).countP (fun c => decide (p.numCells ≤ c)) =
        (cells i.fifoPopId).tail.countP (fun c => decide (p.numCells ≤ c)) +
          if poppingFromStatic s i then 1 else 0 := by
      conv_lhs => rw [h.head_cons (hLegal.pop hPop)]
      rw [List.countP_cons]
      rfl
    simp only [hPop, true_and, Bool.true_and, BEq.rfl, if_true, hCount]
    omega
  · have hPop' : (i.pop && i.fifoPopId == q) = false := by
      simpa using hPop
    have hNone : ¬(i.pop = true ∧ i.fifoPopId = q ∧ poppingFromStatic s i = true) :=
      fun hc => hPop ⟨hc.1, hc.2.1⟩
    rw [hPop', if_neg Bool.false_ne_true, if_neg hNone, Nat.sub_zero]

theorem Occupies.step {s : State Elem p} {cells : Fin p.numFifo → List Nat} (h : Occupies s cells)
    {i : Input Elem p} (hLegal : Legal s i) :
    Occupies (step s i) (stepQueues i (pushCellIdx s i) cells) where
  chains := h.step_chains hLegal
  used := h.step_used hLegal
  bound q c hc := by
    rcases mem_stepQueues.mp hc with hc | ⟨hPush, _, rfl⟩
    · exact h.bound q c ((h.mem_popped hLegal q c).mp hc).1
    · exact (h.pushCell_spec (hLegal.push hPush)).2.1
  static := h.step_static hLegal
  quota q := by
    change fifoStaticOccupD s i q ≤ _
    have hQuota := h.quota q
    rw [fifoStaticOccupD_eq]
    by_cases hIn : i.push = true ∧ i.fifoPushId = q ∧ pushingToStatic s i = true
    · have hLt := of_decide_eq_true hIn.2.2
      rw [hIn.2.1] at hLt
      rw [if_pos hIn]
      omega
    · rw [if_neg hIn]
      omega

end FPsPIN.FifoEngine
