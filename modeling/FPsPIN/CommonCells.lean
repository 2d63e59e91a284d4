import FPsPIN.Lib.PriorityEncoder

/-!
# Cells of the common_cells library

Only the documented behaviour of the cells that several blocks instantiate.
-/

namespace FPsPIN.CommonCells

open PriorityEncoder

/-- Output cnt_o of lzc in its trailing-zero mode; WIDTH - 1 when no bit is set. -/
def lzcCnt (width : Nat) (inI : Nat → Bool) : Nat := (lowest width inI).getD (width - 1)

/-- Output empty_o of lzc. -/
def lzcEmpty (width : Nat) (inI : Nat → Bool) : Bool := (lowest width inI).isNone

theorem lzcEmpty_eq_true {width : Nat} {inI : Nat → Bool} :
    lzcEmpty width inI = true ↔ ∀ j < width, inI j = false := by
  rw [lzcEmpty, Option.isNone_iff_eq_none, lowest_eq_none]

theorem lzcCnt_spec {width k : Nat} (inI : Nat → Bool) (hk : k < width) (hbit : inI k = true) :
    lzcCnt width inI < width ∧ inI (lzcCnt width inI) = true ∧
      ∀ j < lzcCnt width inI, inI j = false := by
  obtain ⟨j, hj⟩ := exists_lowest hk hbit
  rw [lzcCnt, hj]
  exact lowest_eq_some.mp hj

theorem lzcCnt_lt {width : Nat} {inI : Nat → Bool} (h : 0 < width) : lzcCnt width inI < width := by
  rw [lzcCnt]
  cases hl : lowest width inI with
  | none => exact Nat.sub_lt h Nat.one_pos
  | some k => exact (lowest_eq_some.mp hl).1

/-- Contents of fifo_v3 after a cycle; a push into a full queue is ignored. -/
def fifoV3Step {Word : Type} (depth : Nat) (queue : List Word) (push : Bool) (word : Word) (pop : Bool) :
    List Word :=
  (if pop then queue.tail else queue) ++ if push && decide (queue.length < depth) then [word] else []

theorem length_fifoV3Step_le_of_push {Word : Type} {depth bound : Nat} {queue : List Word} {push : Bool} {word : Word}
    {pop : Bool} (h : queue.length ≤ bound) (hPush : push = true → queue.length < depth → queue.length < bound) :
    (fifoV3Step depth queue push word pop).length ≤ bound := by
  have hKept : (if pop then queue.tail else queue).length ≤ queue.length := by
    cases pop with
    | false => exact Nat.le_refl _
    | true => exact List.length_tail ▸ Nat.sub_le _ _
  rw [fifoV3Step, List.length_append]
  cases hRoom : push && decide (queue.length < depth) with
  | false => exact hKept.trans h
  | true =>
    obtain ⟨hPushed, hLt⟩ := Bool.and_eq_true_iff.mp hRoom
    exact Nat.succ_le_of_lt (hKept.trans_lt (hPush hPushed (of_decide_eq_true hLt)))

theorem length_fifoV3Step_le {Word : Type} {depth : Nat} {queue : List Word} {push : Bool} {word : Word} {pop : Bool}
    (h : queue.length ≤ depth) : (fifoV3Step depth queue push word pop).length ≤ depth :=
  length_fifoV3Step_le_of_push h fun _ hLt => hLt

theorem take_append_fifoV3Step {Word : Type} {depth : Nat} {queue : List Word} {push : Bool} {word : Word} {pop : Bool}
    (hPush : push = true → queue.length < depth) :
    (if pop then queue.take 1 else []) ++ fifoV3Step depth queue push word pop =
      queue ++ if push then [word] else [] := by
  have hRoom : (push && decide (queue.length < depth)) = push := by
    cases push with
    | false => rfl
    | true => rw [Bool.true_and, decide_eq_true (hPush rfl)]
  rw [fifoV3Step, hRoom, ← List.append_assoc]
  congr 1
  cases pop with
  | false => rfl
  | true => exact (congrArg (queue.take 1 ++ ·) List.drop_one.symm).trans (List.take_append_drop 1 queue)

theorem length_fifoV3Step {Word : Type} {depth : Nat} {queue : List Word} {push : Bool} {word : Word} {pop : Bool}
    (hPush : push = true → queue.length < depth) (hPop : pop = true → queue ≠ []) :
    pop.toNat + (fifoV3Step depth queue push word pop).length = queue.length + push.toNat := by
  have hOut : (if pop then queue.take 1 else []).length = pop.toNat := by
    cases pop with
    | false => rfl
    | true =>
      obtain ⟨first, rest, rfl⟩ := List.exists_cons_of_ne_nil (hPop rfl)
      rfl
  rw [← hOut, ← List.length_append, take_append_fifoV3Step hPush, List.length_append]
  cases push <;> rfl

theorem toList_head? {Word : Type} (queue : List Word) : queue.head?.toList = queue.take 1 := by
  cases queue <;> rfl

theorem head_append_fifoV3Step {Word : Type} {depth : Nat} {queue : List Word} {push : Bool} {word : Word} {pop : Bool}
    (hPush : push = true → queue.length < depth) :
    (if pop then queue.head? else none).toList ++ fifoV3Step depth queue push word pop =
      queue ++ (if push then some word else none).toList := by
  have hOut : (if pop then queue.head? else none).toList = if pop then queue.take 1 else [] := by
    cases pop with
    | false => rfl
    | true => exact toList_head? queue
  rw [hOut]
  refine (take_append_fifoV3Step hPush).trans ?_
  cases push <;> rfl

/-- Registers A and B of spill_register; a register that is not full is none. -/
structure SpillRegister (Word : Type) where
  a : Option Word
  b : Option Word
deriving DecidableEq

namespace SpillRegister

variable {Word : Type}

def empty : SpillRegister Word := ⟨none, none⟩

section Cycle

variable (r : SpillRegister Word)

def readyO : Bool := r.a.isNone || r.b.isNone

def validO : Bool := r.a.isSome || r.b.isSome

/-- Output data_o, when it is valid. -/
def dataO : Option Word := r.b.or r.a

variable (validI : Bool) (dataI : Word) (readyI : Bool)

def step : SpillRegister Word :=
  let aFill := validI && r.readyO
  let aDrain := r.a.isSome && r.b.isNone
  let bFill := aDrain && !readyI
  let bDrain := r.b.isSome && readyI
  { a := if aFill || aDrain then (if aFill then some dataI else none) else r.a
    b := if bFill || bDrain then (if bFill then r.a else none) else r.b }

def contents : List Word := r.b.toList ++ r.a.toList

theorem contents_step :
    (if readyI then r.dataO.toList else []) ++ (r.step validI dataI readyI).contents =
      r.contents ++ if validI && r.readyO then [dataI] else [] := by
  obtain ⟨a, b⟩ := r
  cases a <;> cases b <;> cases validI <;> cases readyI <;> rfl

theorem dataO_append_contents_step :
    (if readyI then r.dataO else none).toList ++ (r.step validI dataI readyI).contents =
      r.contents ++ (if validI && r.readyO then some dataI else none).toList := by
  obtain ⟨a, b⟩ := r
  cases a <;> cases b <;> cases validI <;> cases readyI <;> rfl

theorem step_of_readyI (hEmpty : r.b = none) :
    r.step validI dataI true = ⟨if validI then some dataI else none, none⟩ := by
  obtain ⟨a, b⟩ := r
  obtain rfl : b = none := hEmpty
  cases a <;> cases validI <;> rfl

theorem dataO_eq_head? : r.dataO = r.contents.head? := by
  obtain ⟨a, b⟩ := r
  cases a <;> cases b <;> rfl

theorem readyO_step_of_readyI : (r.step validI dataI true).readyO = true := by
  obtain ⟨a, b⟩ := r
  cases a <;> cases b <;> cases validI <;> rfl

end Cycle

end SpillRegister

end FPsPIN.CommonCells
