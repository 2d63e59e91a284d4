import FPsPIN.CmdUnit.Flow
import FPsPIN.HostDirect.Responses
import FPsPIN.SocDma.Transfers

/-!
# The command unit with its interfaces

cmd_unit, host_direct and soc_dma_wrap, wired as in pspin. The NIC, the DMA
engine and the host are inputs. Each block sees a run of its own, so what holds
of its runs holds here; the bound on the commands in flight keeps the queues of
soc_dma_wrap from filling.
-/

namespace FPsPIN.CmdUnit.System

open CommonCells Config Events Run
open SocDma (Direction)

/-- As in the instance, the queues of soc_dma_wrap are not smaller than the response buffers. -/
structure Params where
  numClusters : Nat
  intfRespBuffSize : Nat
  intfRespBuffSize_pos : 0 < intfRespBuffSize
  dma : SocDma.Params
  host : HostDirect.Params
  buffSize_le : intfRespBuffSize ≤ dma.respFifoDepth

abbrev Params.unit (p : Params) : CmdUnit.Params where
  numClusters := p.numClusters
  numCmdInterfaces := 3
  intfRespBuffSize := p.intfRespBuffSize
  intfRespBuffSize_pos := p.intfRespBuffSize_pos

abbrev Intf := Fin 3

def hdir : Intf := ⟨cmdHostdirectId, Nat.succ_pos 2⟩

def nic : Intf := ⟨cmdNicOutboundId, Nat.le_of_ble_eq_true rfl⟩

def edma : Intf := ⟨cmdEdmaId, Nat.le_of_ble_eq_true rfl⟩

/-- Wires of the three interfaces, in the order of pspin. -/
def wires {Word : Type} (ofEdma ofNic ofHdir : Word) (j : Intf) : Word :=
  match j.val with
  | 0 => ofHdir
  | 1 => ofNic
  | _ => ofEdma

theorem intf_cases (j : Intf) : j = hdir ∨ j = nic ∨ j = edma := by
  rcases j with ⟨_ | _ | _ | j, hj⟩
  · exact .inl rfl
  · exact .inr (.inl rfl)
  · exact .inr (.inr rfl)
  · omega

structure State (p : Params) (numCmds : Nat) where
  unit : CmdUnit.State p.unit numCmds
  dma : SocDma.State p.dma numCmds
  host : HostDirect.State numCmds

structure Input (p : Params) (numCmds : Nat) where
  cmdValid : Fin p.numClusters → Bool
  cmd : Fin p.numClusters → PspinCmd numCmds
  cmdIdx : Intf → Fin p.numClusters
  respIdx : Intf
  nicCmdReady : Bool
  nicCmdRespValid : Bool
  nicCmdResp : PspinCmdId numCmds
  dmaReqReady : Direction → Bool
  dmaRespValid : Direction → Bool
  dmaRespIdx : Direction
  awReady : Bool
  arReady : Bool
  wReady : Bool
  bValid : Bool
  rValid : Bool
  /-- What data wires carry that nothing valid drives. -/
  stale : PspinCmd numCmds

variable {p : Params} {numCmds : Nat}

def init (p : Params) (numCmds : Nat) : State p numCmds :=
  ⟨CmdUnit.init p.unit numCmds, SocDma.init p.dma numCmds, HostDirect.init numCmds⟩

section Wiring

variable (s : State p numCmds) (i : Input p numCmds)

def offered (j : Intf) : PspinCmd numCmds := (clusterCmd s.unit (i.cmdIdx j)).getD i.stale

def hostInput : HostDirect.Input numCmds where
  cmdReqValid := intfValid s.unit hdir
  cmdReq := offered s i hdir
  awReady := i.awReady
  arReady := i.arReady
  wReady := i.wReady
  bValid := i.bValid
  rValid := i.rValid

def dmaInput : SocDma.Input numCmds where
  cmdReqValid := intfValid s.unit edma
  cmdReq := offered s i edma
  reqReady := i.dmaReqReady
  respValid := i.dmaRespValid
  respIdx := i.dmaRespIdx

def unitInput : CmdUnit.Input p.unit numCmds where
  cmdValid := i.cmdValid
  cmd := i.cmd
  intfReady :=
    wires (SocDma.cmdReqReady s.dma (dmaInput s i)) i.nicCmdReady
      (HostDirect.cmdReqReady p.host s.host (hostInput s i))
  intfCmdRespValid :=
    wires (SocDma.cmdRespValid s.dma) i.nicCmdRespValid (HostDirect.cmdRespValid (hostInput s i))
  intfCmdResp :=
    wires ((SocDma.cmdRespId s.dma (dmaInput s i)).getD i.stale.cmdId) i.nicCmdResp
      ((HostDirect.cmdRespId s.host (hostInput s i)).getD i.stale.cmdId)
  cmdIdx := i.cmdIdx
  respIdx := i.respIdx
  staleResp := i.stale.cmdId

def step : State p numCmds where
  unit := CmdUnit.step s.unit (unitInput s i)
  dma := SocDma.step s.dma (dmaInput s i)
  host := HostDirect.step p.host s.host (hostInput s i)

end Wiring

section Runs

variable (inputs : Nat → Input p numCmds)

def runAt (t : Nat) : State p numCmds := stateAt step (init p numCmds) inputs t

def unitInputs (t : Nat) : CmdUnit.Input p.unit numCmds := unitInput (runAt inputs t) (inputs t)

def dmaInputs (t : Nat) : SocDma.Input numCmds := dmaInput (runAt inputs t) (inputs t)

def hostInputs (t : Nat) : HostDirect.Input numCmds := hostInput (runAt inputs t) (inputs t)

theorem runAt_unit (t : Nat) : (runAt inputs t).unit = CmdUnit.runAt (unitInputs inputs) t :=
  part_stateAt State.unit _ (fun _ => rfl) t

theorem runAt_dma (t : Nat) : (runAt inputs t).dma = SocDma.runAt p.dma (dmaInputs inputs) t :=
  part_stateAt State.dma _ (fun _ => rfl) t

theorem runAt_host (t : Nat) : (runAt inputs t).host = HostDirect.runAt p.host (hostInputs inputs) t :=
  part_stateAt State.host _ (fun _ => rfl) t

/-- The command that interface j accepts, and its response, in cmd_unit's view. -/
def accepted (j : Intf) : Nat → Option (PspinCmd numCmds) := CmdUnit.accepted (unitInputs inputs) j

def answered (j : Intf) : Nat → Option (PspinCmdId numCmds) := CmdUnit.answered (unitInputs inputs) j

/-- Which event of the NIC, the engine and the host belongs to which: a response of the NIC to the command that
it has accepted, a completion to the transfer that the engine has taken, a response of the host to the address
that it has taken. The arguments are the cycles of the two events. -/
structure Links where
  nic : Nat → Nat → Prop
  engine : Direction → Nat → Nat → Prop
  host : Bool → Nat → Nat → Prop

structure Arbitrates : Prop where
  arbiters : ∀ t, CmdUnit.Arbitrates (CmdUnit.runAt (unitInputs inputs) t) (unitInputs inputs t)
  dmaArbiter : ∀ t, SocDma.Arbitrates (SocDma.runAt p.dma (dmaInputs inputs) t) (dmaInputs inputs t)

/-- What is assumed of arbiters, NIC, DMA engine and host. The NIC answers in any order; the engine completes the
transfers of one direction in order and passes over none, and so does the host with writes and with reads. -/
structure Environment (links : Links) : Prop extends Arbitrates inputs where
  nicAnswers : Matching (accepted inputs nic) (answered inputs nic) (fun cmd id => id = cmd.cmdId) links.nic
  nicLater : ∀ {y v}, links.nic y v → y ≤ v
  engine : ∀ d, Matching (SocDma.started (dmaInputs inputs) d) (SocDma.completed (dmaInputs inputs) d)
    (fun _ _ => True) (links.engine d)
  engineLater : ∀ {d y w}, links.engine d y w → y ≤ w
  engineInOrder : ∀ d, NoOvertaking (SocDma.started (dmaInputs inputs) d) (links.engine d)
  host : ∀ b, Matching (HostDirect.sent p.host (hostInputs inputs) b) (HostDirect.completed (hostInputs inputs) b)
    (fun _ _ => True) (links.host b)
  hostLater : ∀ {b a w}, links.host b a w → a ≤ w
  hostInOrder : ∀ b, NoOvertaking (HostDirect.sent p.host (hostInputs inputs) b) (links.host b)
  hostData : ∀ t, (eventsOf (HostDirect.completed (hostInputs inputs) true) t).length ≤
    (eventsOf (HostDirect.wSent p.host (hostInputs inputs)) t).length

variable {inputs} {links : Links}

theorem Environment.engineSound (h : Environment inputs links) : SocDma.EngineSound (dmaInputs inputs) :=
  fun d => (h.engine d).length_le h.engineLater

theorem Environment.hostSound (h : Environment inputs links) : HostDirect.HostSound p.host (hostInputs inputs) :=
  ⟨(h.host true).length_le h.hostLater, h.hostData, (h.host false).length_le h.hostLater⟩

variable (hEnv : Environment inputs links)
include hEnv

theorem accepted_eq (j : Intf) (t : Nat) : accepted inputs j t =
    if intfValid (runAt inputs t).unit j && (unitInputs inputs t).intfReady j then
      some (offered (runAt inputs t) (inputs t) j)
    else none := by
  have hArb := hEnv.arbiters t
  change (if intfValid (CmdUnit.runAt (unitInputs inputs) t) j && (unitInputs inputs t).intfReady j then
    clusterCmd (CmdUnit.runAt (unitInputs inputs) t) ((inputs t).cmdIdx j) else none) = _
  rw [← runAt_unit] at hArb ⊢
  cases hPush : intfValid (runAt inputs t).unit j && (unitInputs inputs t).intfReady j with
  | false => rw [if_neg Bool.false_ne_true, if_neg Bool.false_ne_true]
  | true =>
    rw [if_pos rfl, if_pos rfl]
    have hValid := (Bool.and_eq_true_iff.mp (Bool.and_eq_true_iff.mp hPush).1).1
    obtain ⟨c, hc⟩ := cmdArbValid_eq_true.mp hValid
    obtain ⟨cmd, hCmd, _⟩ := intfMuxValid_eq_true.mp (hArb.cmd j c hc)
    have hSome : clusterCmd (runAt inputs t).unit ((inputs t).cmdIdx j) = some cmd := hCmd
    rw [offered, hSome]
    rfl

theorem accepted_edma : accepted inputs edma = SocDma.accepted p.dma (dmaInputs inputs) := by
  funext t
  rw [accepted_eq hEnv, SocDma.accepted, SocDma.accepts, ← runAt_dma]
  rfl

theorem accepted_hdir : accepted inputs hdir = HostDirect.accepted p.host (hostInputs inputs) := by
  funext t
  rw [accepted_eq hEnv, HostDirect.accepted, HostDirect.accepts, ← runAt_host]
  rfl

theorem answered_hdir : answered inputs hdir = HostDirect.answered p.host (hostInputs inputs) := by
  funext t
  rw [HostDirect.answered, HostDirect.answers]
  change (if HostDirect.cmdRespValid (hostInputs inputs t) then
    some ((HostDirect.cmdRespId (runAt inputs t).host (hostInputs inputs t)).getD
      (inputs t).stale.cmdId) else none) = _
  rw [runAt_host]
  cases hValid : HostDirect.cmdRespValid (hostInputs inputs t) with
  | false => rfl
  | true =>
    obtain ⟨id, hId⟩ := Option.ne_none_iff_exists'.mp (HostDirect.cmdRespId_ne_none hEnv.hostSound hValid)
    rw [if_pos rfl, if_pos rfl, hId]
    rfl

theorem answered_edma {t : Nat} (hRoom : ∀ d, ∀ u < t,
    ((SocDma.runAt p.dma (dmaInputs inputs) u).respFifo d).length < p.dma.respFifoDepth) :
    answered inputs edma t = SocDma.answered p.dma (dmaInputs inputs) t := by
  rw [SocDma.answered, SocDma.answers]
  change (if SocDma.cmdRespValid (runAt inputs t).dma then
    some ((SocDma.cmdRespId (runAt inputs t).dma (dmaInputs inputs t)).getD (inputs t).stale.cmdId) else none) = _
  rw [runAt_dma]
  cases hValid : SocDma.cmdRespValid (SocDma.runAt p.dma (dmaInputs inputs) t) with
  | false => rfl
  | true =>
    obtain ⟨id, hId⟩ := Option.ne_none_iff_exists'.mp
      (SocDma.cmdRespId_ne_none hEnv.engineSound (hEnv.dmaArbiter t) hRoom hValid)
    rw [if_pos rfl, if_pos rfl, hId]
    rfl

/-- The queues of soc_dma_wrap never fill: their commands are in flight for cmd_unit. -/
theorem dma_room (t : Nat) (d : Direction) :
    ((SocDma.runAt p.dma (dmaInputs inputs) t).respFifo d).length < p.dma.respFifoDepth := by
  induction t using Nat.strong_induction_on generalizing d with
  | _ t ih =>
    have hAnswered : ∀ u ≤ t, eventsOf (answered inputs edma) u =
      eventsOf (SocDma.answered p.dma (dmaInputs inputs)) u :=
      fun u hu => window_congr fun v _ hv =>
        congrArg Option.toList (answered_edma hEnv fun d w hw => ih w (by omega) d)
    have hCounts : ∀ u, (eventsOf (SocDma.answered p.dma (dmaInputs inputs)) u).length +
        ((SocDma.runAt p.dma (dmaInputs inputs) u).respFifo .rx).length +
        ((SocDma.runAt p.dma (dmaInputs inputs) u).respFifo .tx).length =
          (eventsOf (accepted inputs edma) u).length := by
      intro u
      have hRx := SocDma.length_popped_add_queue p.dma (dmaInputs inputs) .rx u
      have hTx := SocDma.length_popped_add_queue p.dma (dmaInputs inputs) .tx u
      rw [SocDma.length_answered hEnv.dmaArbiter, accepted_edma hEnv, SocDma.length_accepted]
      omega
    have hNoMore : ∀ u < t, (eventsOf (answered inputs edma) u).length ≤
      (eventsOf (accepted inputs edma) u).length := by
      intro u hu
      rw [hAnswered u (Nat.le_of_lt hu), ← hCounts u]
      omega
    obtain ⟨hOutstanding, hGranted⟩ := outstanding_le hEnv.arbiters hNoMore
    have hNow := hCounts t
    have hPos := p.intfRespBuffSize_pos
    have hSize := p.buffSize_le
    change (eventsOf (accepted inputs edma) t).length ≤ _ + (p.intfRespBuffSize - 1) at hOutstanding
    change _ ≤ (eventsOf (answered inputs edma) t).length at hGranted
    rw [hAnswered t (Nat.le_refl t)] at hGranted
    cases d <;> omega

end Runs

end FPsPIN.CmdUnit.System
