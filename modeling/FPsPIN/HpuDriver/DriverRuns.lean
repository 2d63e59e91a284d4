import FPsPIN.HpuDriver.Driver
import FPsPIN.HpuDriver.CommandIds

/-!
# Commands in runs of the whole driver

The command frontend of a driver runs as one of its own: the core's requests
reach it by their address, and it sees the responses for its core only.
-/

namespace FPsPIN.HpuDriver

open Config CommonCells Run

section Runs

variable {p : Params} (inputs : Nat → Input p)

def runAt (t : Nat) : State p := stateAt step (init p) inputs t

def cmdAt (t : Nat) : CmdFrontend.State p := (runAt inputs t).cmd

def cmdInAt (t : Nat) : CmdFrontend.Input p := cmdInput (runAt inputs t) (inputs t)

theorem cmdAt_succ (t : Nat) :
    cmdAt inputs (t + 1) = CmdFrontend.step (cmdAt inputs t) (cmdInAt inputs t) := rfl

/-- Commands pushed with id x in the cycles from a up to before c. -/
def pushedOn (x : Id p) (a c : Nat) : List (PspinCmd p.numCmds) :=
  window (fun t => if CmdFrontend.pushes (cmdAt inputs t) (cmdInAt inputs t) x then
    [CmdFrontend.cmdD (cmdAt inputs t) (cmdInAt inputs t)] else []) a c

def respondedOn (x : Id p) (a c : Nat) : List (Id p) :=
  window (fun t => if CmdFrontend.responds (cmdInAt inputs t) x then [x] else []) a c

/-- The core holds a request until it is granted, and a response answers a pushed command. -/
structure Environment : Prop where
  held : ∀ t, (inputs t).req = true → gnt (runAt inputs t) (inputs t) = false →
    (inputs (t + 1)).req = true ∧ (inputs (t + 1)).add = (inputs t).add ∧
      (inputs (t + 1)).wen = (inputs t).wen ∧ (inputs (t + 1)).wdata = (inputs t).wdata
  response : ∀ t, cmdRespValid (inputs t) = true →
    (respondedOn inputs (inputs t).cmdResp.localCmdId 0 t).length <
      (pushedOn inputs (inputs t).cmdResp.localCmdId 0 t).length

variable {inputs}

theorem pushedOn_succ (x : Id p) (t : Nat) :
    (pushedOn inputs x 0 (t + 1)).length =
      (pushedOn inputs x 0 t).length +
        (CmdFrontend.pushes (cmdAt inputs t) (cmdInAt inputs t) x).toNat := by
  rw [pushedOn, window_succ _ (Nat.zero_le t), List.length_append, ← pushedOn]
  cases CmdFrontend.pushes (cmdAt inputs t) (cmdInAt inputs t) x <;> rfl

theorem respondedOn_succ (x : Id p) (t : Nat) :
    (respondedOn inputs x 0 (t + 1)).length =
      (respondedOn inputs x 0 t).length + (CmdFrontend.responds (cmdInAt inputs t) x).toNat := by
  rw [respondedOn, window_succ _ (Nat.zero_le t), List.length_append, ← respondedOn]
  cases CmdFrontend.responds (cmdInAt inputs t) x <;> rfl

theorem length_pushedOn (x : Id p) (t : Nat) :
    (pushedOn inputs x 0 t).length = (CmdFrontend.pushedIds (cmdAt inputs) (cmdInAt inputs) 0 t).count x := by
  induction t with
  | zero => rfl
  | succ t ih => rw [pushedOn_succ, CmdFrontend.count_pushedIds_succ, ih]

theorem length_respondedOn (x : Id p) (t : Nat) :
    (respondedOn inputs x 0 t).length = (CmdFrontend.answeredIds (cmdInAt inputs) 0 t).count x := by
  induction t with
  | zero => rfl
  | succ t ih => rw [respondedOn_succ, CmdFrontend.count_answeredIds_succ, ih]

theorem Environment.runs (h : Environment inputs) : CmdFrontend.Runs (cmdAt inputs) (cmdInAt inputs) where
  start := rfl
  next := cmdAt_succ inputs
  held t hReq hBusy := by
    have hCore : (inputs t).req = true ∧ addType (inputs t) = 1 := by simpa [cmdInAt, cmdInput] using hReq
    have hGnt : gnt (runAt inputs t) (inputs t) = false := by
      rw [gnt, hCore.2]
      exact hBusy
    obtain ⟨hNext, hAdd, hWen, hWdata⟩ := h.held t hCore.1 hGnt
    have hType : addType (inputs (t + 1)) = 1 := by rw [addType, hAdd]; exact hCore.2
    refine ⟨?_, hAdd, hWen, hWdata⟩
    simp [cmdInAt, cmdInput, hNext, hType]
  response t hValid := by
    rw [CmdFrontend.mem_outstanding, ← length_pushedOn, ← length_respondedOn]
    exact h.response t hValid

theorem run_held (h : Environment inputs) (t : Nat) : CmdFrontend.Held (cmdAt inputs t) (cmdInAt inputs t) :=
  h.runs.run_held t

theorem run_ids (h : Environment inputs) (t : Nat) (x : Id p) :
    (respondedOn inputs x 0 t).length + ((cmdAt inputs t).freeCmdIds x).toNat =
      (pushedOn inputs x 0 t).length + (CmdFrontend.reserves (cmdAt inputs t) x).toNat := by
  rw [length_respondedOn, length_pushedOn]
  exact CmdFrontend.run_ids h.runs t x

end Runs

end FPsPIN.HpuDriver
