import FPsPIN.HpuDriver.CommandIds

/-!
# Testing a command handle

spin_cmd_test stores the handle to CMD_TEST and then loads CMD_TEST. The
frontend takes the index of a test from the write data of the load. The store
does nothing, and a load has no write data of its own: what is tested is the id
in whatever the bus has there.
-/

namespace FPsPIN.HpuDriver.CmdFrontend

open Run

variable {p : Params}

def cmdTestAddr : BitVec 32 := 0x1B205088

section Runs

variable (inputs : Nat → Input p)

def stateOf (t : Nat) : State p := stateAt step (init p) inputs t

/-- The accesses of spin_cmd_test: a store granted in cycle t, then the load in cycle u. -/
structure SpinCmdTest (handle : BitVec 32) (t u : Nat) : Prop where
  store : (inputs t).req = true ∧ (inputs t).add = cmdTestAddr ∧ (inputs t).wen = false ∧
    (inputs t).wdata = handle
  granted : gnt (stateOf inputs t) (inputs t) = true
  between : ∀ v, t < v → v < u → (inputs v).req = false
  later : t < u
  load : (inputs u).req = true ∧ (inputs u).add = cmdTestAddr ∧ (inputs u).wen = true

def Completed (u : Nat) : Prop :=
  (stateOf inputs (u + 1)).rvalidQ = true ∧ (stateOf inputs (u + 1)).rdataQ = 1

/-- The id is not in flight in cycle u, or its response arrives. -/
def Finished (u : Nat) (x : Id p) : Prop := (stateOf inputs u).freeCmdIds x = false ∨ responds (inputs u) x = true

instance (u : Nat) (x : Id p) : Decidable (Finished inputs u x) := inferInstanceAs (Decidable (_ ∨ _))

variable {inputs} {handle : BitVec 32} {t u : Nat}

theorem stateD_ready_of_no_request {s : State p} {i : Input p} (hState : s.stateQ = .ready)
    (hReq : i.req = false) :
    stateD s i = .ready := by
  simp [stateD, hState, cmdIssued, waitIssued, hReq]

theorem SpinCmdTest.ready (h : SpinCmdTest inputs handle t u) {v : Nat} (htv : t < v) (hvu : v ≤ u) :
    (stateOf inputs v).stateQ = .ready := by
  induction v, htv using Nat.le_induction with
  | base =>
    have hGranted := h.granted
    rw [gnt, Bool.and_eq_true, beq_iff_eq] at hGranted
    exact hGranted.2
  | succ v htv ih =>
    exact stateD_ready_of_no_request (ih (Nat.le_of_succ_le hvu)) (h.between v htv hvu)

/-- The load is granted at once and tests the id in its own write data. -/
theorem SpinCmdTest.completed_iff (h : SpinCmdTest inputs handle t u) :
    Completed inputs u ↔ Finished inputs u (idOf p (inputs u).wdata) := by
  have hReady := h.ready h.later (Nat.le_refl u)
  obtain ⟨hReq, hAdd, hWen⟩ := h.load
  have hTest : testIssued (inputs u) = true := by
    rw [testIssued, addIdx, hReq, hAdd, hWen]
    rfl
  have hIssued : cmdIssued (inputs u) = false := by
    rw [cmdIssued, addIdx, hReq, hAdd, hWen]
    rfl
  have hIdx : wtCmdIdxD (stateOf inputs u) (inputs u) = idOf p (inputs u).wdata := by
    rw [wtCmdIdxD, hTest, Bool.or_true, if_pos rfl]
  have hValid : (stateOf inputs (u + 1)).rvalidQ = true := by
    change gnt (stateOf inputs u) (inputs u) = true
    rw [gnt, hReq, stateD_ready_not_issued _ _ hReady hIssued, waitIssued, hWen, Bool.not_true, Bool.and_false,
      Bool.false_and, if_neg Bool.false_ne_true]
    rfl
  have hRdata : (stateOf inputs (u + 1)).rdataQ =
    if wtCmdFinished (stateOf inputs u) (inputs u) then 1 else 0 := by
    change rdataD (stateOf inputs u) (inputs u) = _
    simp only [rdataD, hReady, hTest, if_true]
  rw [Completed, hRdata, Finished, wtCmdFinished, hIdx, responds]
  simp only [hValid, true_and]
  cases (stateOf inputs u).freeCmdIds (idOf p (inputs u).wdata) <;>
    cases (inputs u).cmdRespValid && (inputs u).cmdRespId == idOf p (inputs u).wdata <;> decide

/-- A test is right exactly if the id in the write data of the load is finished when the tested one is. -/
theorem spinCmdTest_exact_iff (h : SpinCmdTest inputs handle t u) :
    (Completed inputs u ↔ Finished inputs u (idOf p handle)) ↔
      (Finished inputs u (idOf p (inputs u).wdata) ↔ Finished inputs u (idOf p handle)) := by
  rw [h.completed_iff]

/-- Two commands are issued and the first is answered. Then handle 1 is tested, with the given word as
write data of the load. -/
def testSecond (wdata : BitVec 32) : Nat → Input twoIds
  | 0 => ⟨true, 0x1B205080, true, 0, false, zeroId twoIds, false, false⟩
  | 1 => ⟨false, 0, true, 0, false, zeroId twoIds, false, true⟩
  | 2 => ⟨true, 0x1B205080, true, 0, false, zeroId twoIds, false, false⟩
  | 3 => ⟨false, 0, true, 0, true, zeroId twoIds, false, true⟩
  | 4 => ⟨true, cmdTestAddr, false, 1, false, zeroId twoIds, false, false⟩
  | 5 => ⟨true, cmdTestAddr, true, wdata, false, zeroId twoIds, false, false⟩
  | _ => ⟨false, 0, true, 0, false, zeroId twoIds, false, false⟩

theorem testSecond_accesses (wdata : BitVec 32) : SpinCmdTest (testSecond wdata) 1 4 5 where
  store := ⟨rfl, rfl, rfl, rfl⟩
  granted := by
    -- the word is on the bus later
    change gnt (stateOf (testSecond 0) 4) (testSecond 0 4) = true
    decide +kernel
  between v h4 h5 := absurd (Nat.lt_of_lt_of_le h4 (Nat.le_of_lt_succ h5)) (Nat.lt_irrefl 4)
  later := Nat.lt_succ_self 4
  load := ⟨rfl, rfl, rfl⟩

theorem spinCmdTest_exact_same_id :
    Completed (testSecond 1) 5 ↔ Finished (testSecond 1) 5 (idOf twoIds 1) :=
  (spinCmdTest_exact_iff (testSecond_accesses 1)).mpr Iff.rfl

/-- With zero as write data the test of handle 1 reports the completion of command 0. -/
theorem spinCmdTest_other_id :
    SpinCmdTest (testSecond 0) 1 4 5 ∧
      ¬ (Completed (testSecond 0) 5 ↔ Finished (testSecond 0) 5 (idOf twoIds 1)) := by
  refine ⟨testSecond_accesses 0, fun hIff => ?_⟩
  have hCompleted : Completed (testSecond 0) 5 := (testSecond_accesses 0).completed_iff.mpr (by decide +kernel)
  exact absurd (hIff.mp hCompleted) (by decide +kernel)

end Runs

end FPsPIN.HpuDriver.CmdFrontend
