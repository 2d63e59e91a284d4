import Mathlib.Data.Fintype.Basic
import FPsPIN.CommonCells

/-!
# The fifo_engine block

One cycle of fifo_engine.sv: a family of queues that share dynamic cells and
own a quota of static ones. Registers are the source's, with the data memory
and its read register included. A bit of freeCells is set while its cell is
in use, as in the source. The occupation counters are wide enough for the
quota, so they are kept as natural numbers.
-/

namespace FPsPIN.FifoEngine

open CommonCells

structure Params where
  numCells : Nat
  numFifo : Nat
  numStaticCellsPerFifo : Nat

def Params.totStaticCells (p : Params) : Nat := p.numStaticCellsPerFifo * p.numFifo

def Params.totCells (p : Params) : Nat := p.totStaticCells + p.numCells

structure CellT where
  next : Nat
  isLast : Bool

structure State (Elem : Type) (p : Params) where
  cells : Nat → CellT
  freeCells : Nat → Bool
  fifoHead : Fin p.numFifo → Nat
  fifoLast : Fin p.numFifo → Nat
  fifoEmpty : Fin p.numFifo → Bool
  fifoStaticOccup : Fin p.numFifo → Nat
  /-- Words of the i_fifo_data memory. -/
  fifoData : Nat → Elem
  /-- Read register of the memory's first port. -/
  dataO : Elem

structure Input (Elem : Type) (p : Params) where
  newEl : Elem
  push : Bool
  fifoPushId : Fin p.numFifo
  pop : Bool
  fifoPopId : Fin p.numFifo

/-- Registers after reset; the memory is not reset. -/
def init {Elem : Type} (p : Params) (fifoData : Nat → Elem) (dataO : Elem) : State Elem p where
  cells _ := ⟨0, false⟩
  freeCells _ := false
  fifoHead _ := 0
  fifoLast _ := 0
  fifoEmpty _ := true
  fifoStaticOccup _ := 0
  fifoData := fifoData
  dataO := dataO

section Combinational

variable {Elem : Type} {p : Params} (s : State Elem p) (i : Input Elem p)

def freeDynamicCellIdx : Nat := lzcCnt p.numCells (fun c => !s.freeCells c)

def noFreeDynamicCells : Bool := lzcEmpty p.numCells (fun c => !s.freeCells c)

def freeStaticCellIdx : Nat :=
  lzcCnt p.totStaticCells (fun c => !s.freeCells (p.numCells + c)) + p.numCells

/-- Output empty_o: no cell of any queue is in use. -/
def emptyO : Bool := (List.range p.totCells).all (fun c => !s.freeCells c)

def fifoFull (q : Fin p.numFifo) : Bool :=
  noFreeDynamicCells s && s.fifoStaticOccup q == p.numStaticCellsPerFifo

def pushingToStatic : Bool := decide (s.fifoStaticOccup i.fifoPushId < p.numStaticCellsPerFifo)

def pushCellIdx : Nat := if pushingToStatic s i then freeStaticCellIdx s else freeDynamicCellIdx s

def popCellIdx : Nat := s.fifoHead i.fifoPopId

def poppingFromStatic : Bool := decide (p.numCells ≤ s.fifoHead i.fifoPopId)

def freeCellsD : Nat → Bool :=
  let pushed := if i.push then Function.update s.freeCells (pushCellIdx s i) true else s.freeCells
  if i.pop then Function.update pushed (s.fifoHead i.fifoPopId) false else pushed

def fifoStaticOccupD : Fin p.numFifo → Nat :=
  let occup := s.fifoStaticOccup
  if i.push && i.pop && i.fifoPushId == i.fifoPopId then
    match pushingToStatic s i, poppingFromStatic s i with
    | true, false => Function.update occup i.fifoPushId (occup i.fifoPushId + 1)
    | false, true => Function.update occup i.fifoPushId (occup i.fifoPushId - 1)
    | _, _ => occup
  else
    let pushed := if i.push && pushingToStatic s i then
      Function.update occup i.fifoPushId (occup i.fifoPushId + 1) else occup
    if i.pop && poppingFromStatic s i then
      Function.update pushed i.fifoPopId (occup i.fifoPopId - 1) else pushed

def replacesOnly : Bool :=
  i.push && i.pop && i.fifoPushId == i.fifoPopId && (s.cells (s.fifoHead i.fifoPushId)).isLast

def cellsD : Nat → CellT :=
  let marked := Function.update s.cells (pushCellIdx s i)
    { s.cells (pushCellIdx s i) with isLast := true }
  if replacesOnly s i then marked
  else if i.push then
    if s.fifoEmpty i.fifoPushId then marked
    else Function.update marked (s.fifoLast i.fifoPushId) ⟨pushCellIdx s i, false⟩
  else s.cells

def fifoLastD : Fin p.numFifo → Nat :=
  if i.push then Function.update s.fifoLast i.fifoPushId (pushCellIdx s i) else s.fifoLast

def fifoHeadD : Fin p.numFifo → Nat :=
  if replacesOnly s i then Function.update s.fifoHead i.fifoPopId (pushCellIdx s i)
  else
    let pushed := if i.push && s.fifoEmpty i.fifoPushId then
      Function.update s.fifoHead i.fifoPushId (pushCellIdx s i) else s.fifoHead
    if i.pop then Function.update pushed i.fifoPopId (s.cells (s.fifoHead i.fifoPopId)).next
    else pushed

def fifoEmptyD : Fin p.numFifo → Bool :=
  if replacesOnly s i then s.fifoEmpty
  else
    let pushed := if i.push && s.fifoEmpty i.fifoPushId then
      Function.update s.fifoEmpty i.fifoPushId false else s.fifoEmpty
    if i.pop then Function.update pushed i.fifoPopId (s.cells (s.fifoHead i.fifoPopId)).isLast
    else pushed

end Combinational

/-- One clock edge. The memory latches its read before the write of the same edge. -/
def step {Elem : Type} {p : Params} (s : State Elem p) (i : Input Elem p) : State Elem p where
  cells := cellsD s i
  freeCells := freeCellsD s i
  fifoHead := fifoHeadD s i
  fifoLast := fifoLastD s i
  fifoEmpty := fifoEmptyD s i
  fifoStaticOccup := fifoStaticOccupD s i
  fifoData := if i.push then Function.update s.fifoData (pushCellIdx s i) i.newEl else s.fifoData
  dataO := s.fifoData (popCellIdx s i)

end FPsPIN.FifoEngine
