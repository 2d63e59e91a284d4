import FPsPIN.CmdUnit.Progress
import FPsPIN.RrArbTree.Arbiter

/-!
# The command path with its arbiters

The command path of the model takes the choices of its arbiters as inputs, and
what is proved of it assumes that they choose a request, keep to it and pass
over none for ever. Here the arbiters are the instances of rr_arb_tree in
cmd_unit and soc_dma_wrap, and the assumptions hold of them, whatever the
clusters, the NIC, the DMA engine and the host do.
-/

namespace FPsPIN.CmdUnit.System

open CommonCells Config Events Run
open SocDma (Direction)
open RrArbTree (Held vec vec_val choice)

variable {p : Params} {numCmds : Nat}

structure Arbitration (p : Params) (numCmds : Nat) where
  path : State p numCmds
  cmdIntfArb : Intf → RrArbTree.State
  cmdRespArb : RrArbTree.State
  dmaRespArb : RrArbTree.State

/-- The inputs of the arbiter in soc_dma_wrap in their order. -/
def port (k : Fin 2) : Direction := if k.val = 0 then .rx else .tx

theorem intf_pos : 0 < 3 := Nat.succ_pos 2

theorem Input.numClusters_pos (i : Input p numCmds) (j : Intf) : 0 < p.numClusters :=
  Nat.zero_lt_of_lt (i.cmdIdx j).isLt

section Cycle

def cmdIntfInput (s : State p numCmds) (j : Intf) (gnt : Bool) : RrArbTree.Input (Option (PspinCmd numCmds)) where
  req := vec (intfMuxValid s.unit j)
  gnt := gnt
  data k := if h : k < p.numClusters then clusterCmd s.unit ⟨k, h⟩ else none

def cmdRespInput (s : State p numCmds) : RrArbTree.Input (Option (PspinCmdId numCmds)) where
  req := vec (respBufferValid s.unit)
  gnt := true
  data k := if h : k < 3 then (s.unit.respFifo ⟨k, h⟩).head? else none

def dmaRespInput (s : State p numCmds) : RrArbTree.Input (Option (PspinCmdId numCmds)) where
  req := vec fun k => SocDma.fifoRespAvail s.dma (port k)
  gnt := true
  data k := if h : k < 2 then (s.dma.respFifo (port ⟨k, h⟩)).head? else none

variable (x : Arbitration p numCmds) (i : Input p numCmds)

/-- The inputs with the choices of the arbiters. A choice does not depend on whether it is granted. -/
def arbitrated : Input p numCmds :=
  { i with
    cmdIdx := fun j =>
      choice (i.numClusters_pos j) none (x.cmdIntfArb j) (cmdIntfInput x.path j false)
    respIdx := choice intf_pos none x.cmdRespArb (cmdRespInput x.path)
    dmaRespIdx := port (choice Nat.two_pos none x.dmaRespArb (dmaRespInput x.path)) }

def cmdIntfGnt (j : Intf) : Bool := cmdArbReady x.path.unit (unitInput x.path (arbitrated x i)) j

def arbitrationStep : Arbitration p numCmds where
  path := step x.path (arbitrated x i)
  cmdIntfArb j := RrArbTree.step none p.numClusters (x.cmdIntfArb j) (cmdIntfInput x.path j (cmdIntfGnt x i j))
  cmdRespArb := RrArbTree.step none 3 x.cmdRespArb (cmdRespInput x.path)
  dmaRespArb := RrArbTree.step none 2 x.dmaRespArb (dmaRespInput x.path)

/-- No request is withdrawn that an arbiter has locked. -/
structure AllHeld : Prop where
  cmdIntf : ∀ j, Held p.numClusters (x.cmdIntfArb j) (vec (intfMuxValid x.path.unit j))
  cmdResp : Held 3 x.cmdRespArb (vec (respBufferValid x.path.unit))
  dmaResp : Held 2 x.dmaRespArb (vec fun k => SocDma.fifoRespAvail x.path.dma (port k))

/-- The outputs gnt_o and data_o of the arbiter for an interface are the signals that the model has for them. -/
structure OutputsAgree (j : Intf) : Prop where
  gntO : ∀ c : Fin p.numClusters,
    RrArbTree.gntO none p.numClusters (x.cmdIntfArb j) (cmdIntfInput x.path j (cmdIntfGnt x i j)) c =
      intfMuxReady x.path.unit (unitInput x.path (arbitrated x i)) j c
  dataO : RrArbTree.dataO none p.numClusters (x.cmdIntfArb j) (cmdIntfInput x.path j (cmdIntfGnt x i j)) =
    intfCmd x.path.unit (unitInput x.path (arbitrated x i)) j

variable {x i}

theorem intfMuxValid_step {j : Intf} {c : Fin p.numClusters} (hGnt : cmdIntfGnt x i j = false)
    (hValid : intfMuxValid x.path.unit j c = true) : intfMuxValid (arbitrationStep x i).path.unit j c = true := by
  obtain ⟨cmd, hCmd, hIntf⟩ := intfMuxValid_eq_true.mp hValid
  refine intfMuxValid_eq_true.mpr ⟨cmd, clusterCmd_step ?_ hCmd, hIntf⟩
  by_contra hTakes
  obtain ⟨cmd', hTakes⟩ := Option.ne_none_iff_exists'.mp hTakes
  obtain ⟨hCmd', hLt, hReady, -⟩ := takes_eq_some.mp hTakes
  obtain rfl : cmd = cmd' := Option.some.inj (hCmd.symm.trans hCmd')
  obtain rfl : j = ⟨cmd.intfId, hLt⟩ := Fin.ext hIntf.symm
  rw [cmdIntfGnt, hReady] at hGnt
  cases hGnt

theorem AllHeld.step (h : AllHeld x) : AllHeld (arbitrationStep x i) where
  cmdIntf j := by
    refine Held.step (i := cmdIntfInput x.path j (cmdIntfGnt x i j)) (h.cmdIntf j)
      (i.numClusters_pos j) ?_
    intro hGnt k hk hReq
    change vec (intfMuxValid x.path.unit j) k = true at hReq
    rw [vec, dif_pos hk] at hReq ⊢
    exact intfMuxValid_step hGnt hReq
  cmdResp := Held.step (i := cmdRespInput x.path) h.cmdResp intf_pos fun hGnt => by cases hGnt
  dmaResp := Held.step (i := dmaRespInput x.path) h.dmaResp Nat.two_pos fun hGnt => by cases hGnt

theorem AllHeld.cmdIdx (h : AllHeld x) {j : Intf} (hValid : cmdArbValid x.path.unit j = true) (gnt : Bool) :
    RrArbTree.reqO none p.numClusters (x.cmdIntfArb j) (cmdIntfInput x.path j gnt) = true ∧
      ((arbitrated x i).cmdIdx j).val =
        RrArbTree.idxO none p.numClusters (x.cmdIntfArb j) (cmdIntfInput x.path j gnt) ∧
      intfMuxValid x.path.unit j ((arbitrated x i).cmdIdx j) = true := by
  obtain ⟨c, hc⟩ := cmdArbValid_eq_true.mp hValid
  exact Held.choice (i := cmdIntfInput x.path j gnt) (h.cmdIntf j) (i.numClusters_pos j) rfl hc

theorem AllHeld.outputs (h : AllHeld x) {j : Intf} (hValid : cmdArbValid x.path.unit j = true) :
    OutputsAgree x i j := by
  have hPos := i.numClusters_pos j
  obtain ⟨hReq, hVal, -⟩ := h.cmdIdx (i := i) hValid (cmdIntfGnt x i j)
  refine ⟨fun c => ?_, ?_⟩
  · rw [RrArbTree.gntO_eq hPos hReq, ← hVal]
    exact congrArg (_ && ·) (decide_eq_decide.mpr Fin.val_inj)
  · rw [(RrArbTree.idxO_spec hPos hReq).2.2, ← hVal]
    exact dif_pos ((arbitrated x i).cmdIdx j).isLt

theorem exists_port (d : Direction) : ∃ k, port k = d := by
  cases d with
  | rx => exact ⟨⟨0, Nat.succ_pos 1⟩, rfl⟩
  | tx => exact ⟨⟨1, Nat.lt_succ_self 1⟩, rfl⟩

end Cycle

section Runs

variable (inputs : Nat → Input p numCmds)

def arbitrationAt (t : Nat) : Arbitration p numCmds :=
  stateAt arbitrationStep ⟨init p numCmds, fun _ => RrArbTree.init, RrArbTree.init, RrArbTree.init⟩ inputs t

def arbitratedInputs (t : Nat) : Input p numCmds := arbitrated (arbitrationAt inputs t) (inputs t)

def cmdIntfInputs (j : Intf) (t : Nat) : RrArbTree.Input (Option (PspinCmd numCmds)) :=
  cmdIntfInput (arbitrationAt inputs t).path j (cmdIntfGnt (arbitrationAt inputs t) (inputs t) j)

structure ArbitersFair (inputs : Nat → Input p numCmds) : Prop extends Arbitrates inputs, FairArbiters inputs

variable {inputs}

theorem path_arbitrationAt (t : Nat) : (arbitrationAt inputs t).path = runAt (arbitratedInputs inputs) t :=
  part_stateAt Arbitration.path _ (fun _ => rfl) t

theorem cmdIntfArb_arbitrationAt (j : Intf) (t : Nat) :
    (arbitrationAt inputs t).cmdIntfArb j = RrArbTree.runAt none p.numClusters (cmdIntfInputs inputs j) t :=
  part_stateAt (fun x => Arbitration.cmdIntfArb x j) _ (fun _ => rfl) t

theorem cmdRespArb_arbitrationAt (t : Nat) : (arbitrationAt inputs t).cmdRespArb =
    RrArbTree.runAt none 3 (fun u => cmdRespInput (arbitrationAt inputs u).path) t :=
  part_stateAt Arbitration.cmdRespArb _ (fun _ => rfl) t

theorem dmaRespArb_arbitrationAt (t : Nat) : (arbitrationAt inputs t).dmaRespArb =
    RrArbTree.runAt none 2 (fun u => dmaRespInput (arbitrationAt inputs u).path) t :=
  part_stateAt Arbitration.dmaRespArb _ (fun _ => rfl) t

theorem allHeld_arbitrationAt (t : Nat) : AllHeld (arbitrationAt inputs t) := by
  induction t with
  | zero => exact ⟨fun _ => .init _, .init _, .init _⟩
  | succ t ih => exact ih.step

theorem arbitrates_unit (t : Nat) :
    CmdUnit.Arbitrates (arbitrationAt inputs t).path.unit
      (unitInput (arbitrationAt inputs t).path (arbitratedInputs inputs t)) where
  cmd _ c hc := ((allHeld_arbitrationAt t).cmdIdx (i := inputs t) (cmdArbValid_eq_true.mpr ⟨c, hc⟩) false).2.2
  resp _ hj :=
    (Held.choice (i := cmdRespInput _) (allHeld_arbitrationAt t).cmdResp intf_pos rfl hj).2.2

theorem arbitrates_dma (t : Nat) :
    SocDma.Arbitrates (arbitrationAt inputs t).path.dma
      (dmaInput (arbitrationAt inputs t).path (arbitratedInputs inputs t)) := by
  intro d hd
  obtain ⟨k, rfl⟩ := exists_port d
  exact (Held.choice (f := fun k => SocDma.fifoRespAvail (arbitrationAt inputs t).path.dma (port k))
    (i := dmaRespInput _) (allHeld_arbitrationAt t).dmaResp Nat.two_pos rfl hd).2.2

theorem accepted_ne_none {j : Intf} {t : Nat} : accepted (arbitratedInputs inputs) j t ≠ none ↔
    cmdArbValid (arbitrationAt inputs t).path.unit j = true ∧
      cmdIntfGnt (arbitrationAt inputs t) (inputs t) j = true := by
  change accepts (CmdUnit.runAt _ t) (unitInput (runAt _ t) _) j ≠ none ↔ _
  rw [← runAt_unit, ← path_arbitrationAt, ← reqPush_iff (arbitrates_unit t), reqPush, Bool.and_eq_true]
  rfl

theorem granted_cmdIntf (j : Intf) (t : Nat) :
    RrArbTree.granted none p.numClusters (cmdIntfInputs inputs j) t =
      if accepted (arbitratedInputs inputs) j t = none then []
      else [((arbitratedInputs inputs t).cmdIdx j).val] := by
  rw [RrArbTree.granted, ← cmdIntfArb_arbitrationAt]
  by_cases hNone : accepted (arbitratedInputs inputs) j t = none
  · rw [if_pos hNone]
    refine if_neg fun hGrant => ?_
    obtain ⟨hGnt, hReq⟩ := Bool.and_eq_true_iff.mp hGrant
    obtain ⟨k, hk, hSet⟩ := (Held.reqO_iff (i := cmdIntfInputs inputs j t) ((allHeld_arbitrationAt t).cmdIntf j)
      ((inputs t).numClusters_pos j)).mp hReq
    have hMux : intfMuxValid (arbitrationAt inputs t).path.unit j ⟨k, hk⟩ = true := (vec_val _ _).symm.trans hSet
    exact accepted_ne_none.mpr ⟨cmdArbValid_eq_true.mpr ⟨_, hMux⟩, hGnt⟩ hNone
  · rw [if_neg hNone]
    obtain ⟨hValid, hGnt⟩ := accepted_ne_none.mp hNone
    obtain ⟨hReq, hVal, -⟩ := (allHeld_arbitrationAt t).cmdIdx (i := inputs t) hValid (cmdIntfInputs inputs j t).gnt
    exact (if_pos (Bool.and_eq_true_iff.mpr ⟨hGnt, hReq⟩)).trans (congrArg (fun k => [k]) hVal.symm)

theorem cmdIdx_succ {j : Intf} {t : Nat} (hValid : cmdArbValid (arbitrationAt inputs t).path.unit j = true)
    (hNone : accepted (arbitratedInputs inputs) j t = none) :
    (arbitratedInputs inputs (t + 1)).cmdIdx j = (arbitratedInputs inputs t).cmdIdx j := by
  have hGnt : (cmdIntfInputs inputs j t).gnt = false := by
    by_contra hGnt
    exact accepted_ne_none.mpr ⟨hValid, (Bool.not_eq_false _).mp hGnt⟩ hNone
  have hReq := ((allHeld_arbitrationAt t).cmdIdx (i := inputs t) hValid (cmdIntfInputs inputs j t).gnt).1
  have hPos := (inputs t).numClusters_pos j
  exact RrArbTree.choice_step hPos hPos hReq hGnt

theorem arbitersFair_arbitratedInputs : ArbitersFair (arbitratedInputs inputs) where
  arbiters t := by
    rw [← runAt_unit, ← path_arbitrationAt, unitInputs, ← path_arbitrationAt]
    exact arbitrates_unit t
  dmaArbiter t := by
    rw [← runAt_dma, ← path_arbitrationAt, dmaInputs, ← path_arbitrationAt]
    exact arbitrates_dma t
  locked j t hValid hNone := cmdIdx_succ (by rwa [path_arbitrationAt]) hNone
  cmdArbiter j c t hAlways hAccepts := by
    have hReq : ∀ v, t ≤ v → (cmdIntfInputs inputs j v).req c = true := by
      intro v htv
      change vec (intfMuxValid (arbitrationAt inputs v).path.unit j) c = true
      rw [vec_val, path_arbitrationAt]
      exact hAlways v htv
    have hGrants : ∀ v, t ≤ v → ∃ u, v ≤ u ∧
        RrArbTree.granted none p.numClusters (cmdIntfInputs inputs j) u ≠ [] := by
      intro v htv
      obtain ⟨u, hvu, hSome⟩ := hAccepts v htv
      refine ⟨u, hvu, ?_⟩
      rw [granted_cmdIntf, if_neg hSome]
      exact List.cons_ne_nil _ _
    obtain ⟨u, htu, hMem⟩ := RrArbTree.granted_of_always c.isLt hReq hGrants
    rw [granted_cmdIntf] at hMem
    split at hMem
    · cases hMem
    · next hSome => exact ⟨u, htu, Fin.ext (List.mem_singleton.mp hMem).symm, hSome⟩
  respArbiter j t := by
    obtain ⟨u, htu, hChoice⟩ := RrArbTree.choice_of_granting none
      (fun u => cmdRespInput (arbitrationAt inputs u).path) intf_pos (fun _ => rfl) (fun _ => rfl) j t
    refine ⟨u, htu, fun hValid => ?_⟩
    rw [← cmdRespArb_arbitrationAt] at hChoice
    exact hChoice (by rwa [path_arbitrationAt])
  dmaRespArbiter d t := by
    obtain ⟨k, rfl⟩ := exists_port d
    obtain ⟨u, htu, hChoice⟩ := RrArbTree.choice_of_granting none
      (fun u => dmaRespInput (arbitrationAt inputs u).path)
      (f := fun u k => SocDma.fifoRespAvail (arbitrationAt inputs u).path.dma (port k)) Nat.two_pos
      (fun _ => rfl) (fun _ => rfl) k t
    refine ⟨u, htu, fun hValid => ?_⟩
    rw [← dmaRespArb_arbitrationAt] at hChoice
    exact congrArg port (hChoice (by rwa [path_arbitrationAt]))

/-- The arbiters of cmd_unit and soc_dma_wrap are what the command path assumes of them, in every run, and those for
the interfaces give the grants and the commands of the model. -/
theorem commandPath_arbitration (inputs : Nat → Input p numCmds) :
    ArbitersFair (arbitratedInputs inputs) ∧
      ∀ j t, cmdArbValid (runAt (arbitratedInputs inputs) t).unit j = true →
      OutputsAgree (arbitrationAt inputs t) (inputs t) j := by
  refine ⟨arbitersFair_arbitratedInputs, fun j t hValid => ?_⟩
  rw [← path_arbitrationAt] at hValid
  exact (allHeld_arbitrationAt t).outputs hValid

end Runs

end FPsPIN.CmdUnit.System
