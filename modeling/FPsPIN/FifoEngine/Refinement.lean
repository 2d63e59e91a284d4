import FPsPIN.Lib.Run
import FPsPIN.FifoEngine.Invariant

/-!
# The fifo_engine as a family of queues

The abstract machine is a family of lists, one per queue; a cycle removes the
head of the popped queue and appends to the pushed one. The engine holds such
a family when its cells, read through the data memory from head to last, spell
it out. Popped data appears in the read register one cycle later.
-/

namespace FPsPIN.FifoEngine

open CommonCells LinkedQueues Run

variable {Elem : Type} {p : Params}

def abstractStep (queues : Fin p.numFifo → List Elem) (i : Input Elem p) : Fin p.numFifo → List Elem :=
  stepQueues i i.newEl queues

def queuesAt (inputs : Nat → Input Elem p) : Nat → Fin p.numFifo → List Elem :=
  stateAt abstractStep (fun _ => []) inputs

def Refines (s : State Elem p) (queues : Fin p.numFifo → List Elem) : Prop :=
  ∃ cells, Occupies s cells ∧ ∀ q, queues q = (cells q).map s.fifoData

theorem init_refines (fifoData : Nat → Elem) (dataO : Elem) :
    Refines (init p fifoData dataO) (fun _ => []) :=
  ⟨fun _ => [], init_occupies fifoData dataO, fun _ => rfl⟩

theorem Refines.fifoEmpty_eq {s : State Elem p} {queues : Fin p.numFifo → List Elem}
    (h : Refines s queues) (q : Fin p.numFifo) : s.fifoEmpty q = (queues q).isEmpty := by
  obtain ⟨cells, hOcc, hData⟩ := h
  rw [hData q, List.isEmpty_map]
  exact hOcc.chains.empty q

theorem Refines.dataO_step {s : State Elem p} {queues : Fin p.numFifo → List Elem}
    (h : Refines s queues) {i : Input Elem p} (hNonempty : queues i.fifoPopId ≠ []) :
    queues i.fifoPopId = (step s i).dataO :: (queues i.fifoPopId).tail := by
  have hEmpty : s.fifoEmpty i.fifoPopId = false := by
    rw [h.fifoEmpty_eq, List.isEmpty_eq_false_iff]
    exact hNonempty
  obtain ⟨cells, hOcc, hData⟩ := h
  rw [hData, hOcc.head_cons hEmpty, List.map_cons, List.tail_cons]
  rfl

theorem Refines.step {s : State Elem p} {queues : Fin p.numFifo → List Elem} (h : Refines s queues)
    {i : Input Elem p} (hLegal : Legal s i) : Refines (step s i) (abstractStep queues i) := by
  obtain ⟨cells, hOcc, hData⟩ := h
  refine ⟨stepQueues i (pushCellIdx s i) cells, hOcc.step hLegal, fun q => ?_⟩
  -- The write of this cycle goes to a cell outside every queue, so old contents are kept.
  have hKept : ∀ l : List Nat, (∀ c ∈ l, c ∈ cells q) →
      l.map (FifoEngine.step s i).fifoData = l.map s.fifoData := by
    intro l hl
    refine List.map_congr_left (fun c hc => ?_)
    change (if i.push then Function.update s.fifoData (pushCellIdx s i) i.newEl else s.fifoData) c = _
    by_cases hPush : i.push = true
    · have hFresh := hOcc.pushCell_fresh (hLegal.push hPush) q
      have hne : c ≠ pushCellIdx s i := fun hEq => hFresh (hEq ▸ hl c hc)
      rw [if_pos hPush, Function.update_of_ne hne]
    · rw [if_neg hPush]
  have hPopped : (if i.pop && i.fifoPopId == q then (queues q).tail else queues q) =
      (if i.pop && i.fifoPopId == q then (cells q).tail else cells q).map
        (FifoEngine.step s i).fifoData := by
    rw [hData q]
    split_ifs
    · rw [hKept _ (fun c => List.mem_of_mem_tail), List.map_tail]
    · rw [hKept _ (fun c hc => hc)]
  have hPushed : (if i.push && i.fifoPushId == q then [i.newEl] else []) =
      (if i.push && i.fifoPushId == q then [pushCellIdx s i] else []).map
        (FifoEngine.step s i).fifoData := by
    split_ifs with hPush
    · rw [Bool.and_eq_true] at hPush
      simp [FifoEngine.step, hPush.1]
    · rfl
  rw [abstractStep, stepQueues, stepQueues, List.map_append, hPopped, hPushed]

/-- A queue is reported full only when its static quota and the dynamic pool are both used up. -/
theorem Refines.full_spec {s : State Elem p} {queues : Fin p.numFifo → List Elem}
    (h : Refines s queues) {q : Fin p.numFifo} (hFull : fifoFull s q = true) :
    p.numStaticCellsPerFifo ≤ (queues q).length ∧ p.numCells ≤ ∑ r, (queues r).length := by
  classical
  obtain ⟨cells, hOcc, hData⟩ := h
  rw [fifoFull, Bool.and_eq_true, beq_iff_eq, noFreeDynamicCells, lzcEmpty_eq_true] at hFull
  have hLength : ∀ r, (queues r).length = (cells r).length := fun r => by
    rw [hData r, List.length_map]
  constructor
  · rw [hLength, ← hFull.2, hOcc.static]
    exact List.countP_le_length
  · have hSub : Finset.range p.numCells ⊆ Finset.univ.biUnion (fun r => (cells r).toFinset) := by
      intro c hc
      have hUsed := hFull.1 c (Finset.mem_range.mp hc)
      obtain ⟨r, hr⟩ := (hOcc.used c).mp (by simpa using hUsed)
      simp only [Finset.mem_biUnion, Finset.mem_univ, true_and, List.mem_toFinset]
      exact ⟨r, hr⟩
    calc p.numCells = (Finset.range p.numCells).card := (Finset.card_range _).symm
      _ ≤ (Finset.univ.biUnion (fun r => (cells r).toFinset)).card := Finset.card_le_card hSub
      _ ≤ ∑ r, (cells r).toFinset.card := Finset.card_biUnion_le
      _ ≤ ∑ r, (queues r).length :=
        Finset.sum_le_sum (fun r _ => by rw [hLength]; exact List.toFinset_card_le _)

theorem Refines.length_le {s : State Elem p} {queues : Fin p.numFifo → List Elem}
    (h : Refines s queues) (q : Fin p.numFifo) :
    (queues q).length ≤ p.numCells + p.numStaticCellsPerFifo := by
  classical
  obtain ⟨cells, hOcc, hData⟩ := h
  have hDynamic : (cells q).countP (fun c => !decide (p.numCells ≤ c)) ≤ p.numCells := by
    have hNodup := (hOcc.chains.nodup q).filter (fun c => !decide (p.numCells ≤ c))
    rw [List.countP_eq_length_filter, ← List.toFinset_card_of_nodup hNodup]
    refine (Finset.card_le_card fun c hc => ?_).trans (Finset.card_range p.numCells).le
    simpa using (List.mem_filter.mp (List.mem_toFinset.mp hc)).2
  have hStatic := hOcc.quota q
  rw [hOcc.static] at hStatic
  rw [hData q, List.length_map, List.length_eq_countP_add_countP (fun c => decide (p.numCells ≤ c))]
  simp only [Bool.not_eq_true, Bool.decide_eq_false] at hDynamic ⊢
  omega

theorem Refines.emptyO_iff {s : State Elem p} {queues : Fin p.numFifo → List Elem}
    (h : Refines s queues) : emptyO s = true ↔ ∀ q, queues q = [] := by
  obtain ⟨cells, hOcc, hData⟩ := h
  have hFree : emptyO s = true ↔ ∀ c < p.totCells, s.freeCells c = false := by simp [emptyO]
  rw [hFree]
  constructor
  · intro hAll q
    rw [hData q, List.map_eq_nil_iff, List.eq_nil_iff_forall_not_mem]
    intro c hc
    have hUsed := (hOcc.used c).mpr ⟨q, hc⟩
    rw [hAll c (hOcc.bound q c hc)] at hUsed
    cases hUsed
  · intro hNil c _
    rw [← Bool.not_eq_true, hOcc.used c]
    rintro ⟨q, hc⟩
    have hCells := hNil q
    rw [hData q, List.map_eq_nil_iff] at hCells
    rw [hCells] at hc
    cases hc

def pushedTo (q : Fin p.numFifo) (i : Input Elem p) : List Elem :=
  if i.push && i.fifoPushId == q then [i.newEl] else []

/-- Element returned for queue q by a pop, read from data_o after the edge. -/
def returnedFrom (q : Fin p.numFifo) (i : Input Elem p) (next : State Elem p) : List Elem :=
  if i.pop && i.fifoPopId == q then [next.dataO] else []

theorem Refines.step_conserves {s : State Elem p} {queues : Fin p.numFifo → List Elem}
    (h : Refines s queues) {i : Input Elem p} (hPop : i.pop = true → queues i.fifoPopId ≠ [])
    (q : Fin p.numFifo) :
    queues q ++ pushedTo q i = returnedFrom q i (FifoEngine.step s i) ++ abstractStep queues i q := by
  rw [abstractStep, stepQueues, ← List.append_assoc, pushedTo]
  congr 1
  rw [returnedFrom]
  split_ifs with hq
  · rw [Bool.and_eq_true, beq_iff_eq] at hq
    obtain ⟨hPopped, rfl⟩ := hq
    exact h.dataO_step (hPop hPopped)
  · rfl

section Runs

variable (fifoData : Nat → Elem) (dataO : Elem) (inputs : Nat → Input Elem p)

theorem run_refines
    (hPush : ∀ t, (inputs t).push = true →
      fifoFull (stateAt step (init p fifoData dataO) inputs t) (inputs t).fifoPushId = false)
    (hPop : ∀ t, (inputs t).pop = true → queuesAt inputs t (inputs t).fifoPopId ≠ []) (t : Nat) :
    Refines (stateAt step (init p fifoData dataO) inputs t) (queuesAt inputs t) := by
  induction t with
  | zero => exact init_refines fifoData dataO
  | succ t ih =>
    refine ih.step ⟨hPush t, fun hPopped => ?_⟩
    rw [ih.fifoEmpty_eq, List.isEmpty_eq_false_iff]
    exact hPop t hPopped

/-- Under pushes to queues not reported full and pops of non-empty queues the engine is a family
of independent queues: flags agree, a pop returns the head, and per queue the elements pushed so
far are the elements returned so far followed by the elements held. -/
theorem fifoEngine_refines_queues
    (hPush : ∀ t, (inputs t).push = true →
      fifoFull (stateAt step (init p fifoData dataO) inputs t) (inputs t).fifoPushId = false)
    (hPop : ∀ t, (inputs t).pop = true → queuesAt inputs t (inputs t).fifoPopId ≠ []) (t : Nat) :
    (∀ q, (stateAt step (init p fifoData dataO) inputs t).fifoEmpty q = (queuesAt inputs t q).isEmpty) ∧
    ((inputs t).pop = true → queuesAt inputs t (inputs t).fifoPopId =
      (stateAt step (init p fifoData dataO) inputs (t + 1)).dataO ::
        (queuesAt inputs t (inputs t).fifoPopId).tail) ∧
    (∀ q, window (fun u => pushedTo q (inputs u)) 0 t =
      window (fun u => returnedFrom q (inputs u)
        (stateAt step (init p fifoData dataO) inputs (u + 1))) 0 t ++ queuesAt inputs t q) := by
  have hRefines := run_refines fifoData dataO inputs hPush hPop
  refine ⟨(hRefines t).fifoEmpty_eq, fun hPopped => (hRefines t).dataO_step (hPop t hPopped), fun q => ?_⟩
  induction t with
  | zero => rfl
  | succ t ih =>
    rw [window_succ _ (Nat.zero_le t), window_succ _ (Nat.zero_le t), ih, List.append_assoc,
      (hRefines t).step_conserves (hPop t) q, List.append_assoc]
    rfl

end Runs

def onFirst (data : Nat) (push pop : Bool) : Input Nat ⟨2, 2, 1⟩ :=
  ⟨data, push, ⟨0, Nat.two_pos⟩, pop, ⟨0, Nat.two_pos⟩⟩

/-- A push, then a push and a pop on the queue of length one it leaves, then nothing. -/
def turnover : Nat → Input Nat ⟨2, 2, 1⟩
  | 0 => onFirst 7 true false
  | 1 => onFirst 8 true true
  | _ => onFirst 0 false false

theorem fifoEngine_refines_turnover :
    (stateAt step (init ⟨2, 2, 1⟩ (fun _ => 0) 0) turnover 2).dataO :: [] = [7] ∧
      window (fun u => pushedTo 0 (turnover u)) 0 2 = [7] ++ [8] := by
  have hRun := fifoEngine_refines_queues (fun _ => 0) 0 turnover
    (fun t hPush => match t with
      | 0 => rfl
      | 1 => rfl
      | _ + 2 => absurd hPush Bool.false_ne_true)
    (fun t hPop => match t with
      | 0 => absurd hPop Bool.false_ne_true
      | 1 => by decide
      | _ + 2 => absurd hPop Bool.false_ne_true)
  exact ⟨((hRun 1).2.1 rfl).symm, (hRun 2).2.2 0⟩

end FPsPIN.FifoEngine
