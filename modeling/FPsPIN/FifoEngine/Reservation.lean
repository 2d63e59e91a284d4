import FPsPIN.FifoEngine.Refinement

/-!
# Static cells of the fifo_engine

The static cells are one pool from which any free cell is taken, and yet each
queue has its own quota of them: the occupation counters say how the cells in
use are divided among the queues, and a queue is reported full only if its own
share is used up.
-/

namespace FPsPIN.FifoEngine

open CommonCells LinkedQueues Run

variable {Elem : Type} {p : Params}

/-- The cells of a queue, from its head along the next pointers. -/
def linkedCells (s : State Elem p) (q : Fin p.numFifo) : List Nat := (pointers s).cellsOf p.totCells q

def linkedStatic (s : State Elem p) (q : Fin p.numFifo) : Nat :=
  (linkedCells s q).countP fun c => decide (p.numCells ≤ c)

structure StaticReservation (s : State Elem p) : Prop where
  total : (usedStatic s).card = ∑ q, s.fifoStaticOccup q
  linked : ∀ q, s.fifoStaticOccup q = linkedStatic s q
  unused : ∀ i : Input Elem p, fifoFull s i.fifoPushId = false → s.freeCells (pushCellIdx s i) = false
  reserved : ∀ q, linkedStatic s q < p.numStaticCellsPerFifo → fifoFull s q = false

theorem Occupies.linkedCells_eq {s : State Elem p} {cells : Fin p.numFifo → List Nat} (h : Occupies s cells)
    (q : Fin p.numFifo) : linkedCells s q = cells q := by
  refine h.chains.cellsOf_eq ?_
  have hSub : (cells q).toFinset ⊆ Finset.range p.totCells := by
    intro c hc
    exact Finset.mem_range.mpr (h.bound q c (List.mem_toFinset.mp hc))
  calc (cells q).length = (cells q).toFinset.card := (List.toFinset_card_of_nodup (h.chains.nodup q)).symm
    _ ≤ (Finset.range p.totCells).card := Finset.card_le_card hSub
    _ = p.totCells := Finset.card_range _

theorem Refines.length_linkedCells {s : State Elem p} {queues : Fin p.numFifo → List Elem} (h : Refines s queues)
    (q : Fin p.numFifo) : (linkedCells s q).length = (queues q).length := by
  obtain ⟨cells, hOccupies, hData⟩ := h
  rw [hOccupies.linkedCells_eq, hData, List.length_map]

theorem Occupies.staticReservation {s : State Elem p} {cells : Fin p.numFifo → List Nat} (h : Occupies s cells) :
    StaticReservation s := by
  have hLinked : ∀ q, s.fifoStaticOccup q = linkedStatic s q := by
    intro q
    rw [h.static, linkedStatic, h.linkedCells_eq]
  refine ⟨h.card_usedStatic, hLinked, fun i hFull => (h.pushCell_spec hFull).1, fun q hBelow => ?_⟩
  rw [fifoFull, hLinked, beq_false_of_ne (Nat.ne_of_lt hBelow), Bool.and_false]

/-- Under pushes to queues not reported full and pops of non-empty queues. -/
theorem fifoEngine_static_reservation (fifoData : Nat → Elem) (dataO : Elem) (inputs : Nat → Input Elem p)
    (hPush : ∀ t, (inputs t).push = true →
      fifoFull (stateAt step (init p fifoData dataO) inputs t) (inputs t).fifoPushId = false)
    (hPop : ∀ t, (inputs t).pop = true → queuesAt inputs t (inputs t).fifoPopId ≠ []) (t : Nat) :
    StaticReservation (stateAt step (init p fifoData dataO) inputs t) := by
  obtain ⟨cells, hOccupies, _⟩ := run_refines fifoData dataO inputs hPush hPop t
  exact hOccupies.staticReservation

/-- Queue 0 takes its static cell and both dynamic ones; queue 1 then still has its own. -/
def greedy : Nat → Input Nat ⟨2, 2, 1⟩
  | 0 | 1 | 2 => ⟨7, true, ⟨0, Nat.two_pos⟩, false, ⟨0, Nat.two_pos⟩⟩
  | 3 => ⟨8, true, ⟨1, Nat.one_lt_two⟩, false, ⟨0, Nat.two_pos⟩⟩
  | _ => ⟨0, false, ⟨0, Nat.two_pos⟩, false, ⟨0, Nat.two_pos⟩⟩

theorem fifoEngine_static_reservation_greedy :
    fifoFull (stateAt step (init ⟨2, 2, 1⟩ (fun _ => 0) 0) greedy 3) 0 = true ∧
      fifoFull (stateAt step (init ⟨2, 2, 1⟩ (fun _ => 0) 0) greedy 3) 1 = false := by
  have hRun := fifoEngine_static_reservation (fun _ => 0) 0 greedy
    (fun t hPush => match t with
      | 0 | 1 | 2 | 3 => by decide +kernel
      | _ + 4 => absurd hPush Bool.false_ne_true)
    (fun t hPop => match t with
      | 0 | 1 | 2 | 3 | _ + 4 => absurd hPop Bool.false_ne_true)
  exact ⟨by decide +kernel, (hRun 3).reserved 1 (by decide +kernel)⟩

end FPsPIN.FifoEngine
