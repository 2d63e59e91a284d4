import FPsPIN.CmdUnit.Delivery

/-!
# Commands come to their end

If an interface accepted nothing more while a cluster has a command for it, all
its commands would be answered, so there would be room for one more, and the
interface would take it. So an interface with commands accepts again and again,
and a fair arbiter lets every cluster have its turn.
-/

namespace FPsPIN.CmdUnit.System

open CommonCells Config Events Run
open SocDma (Direction directionOf)
open HostDirect (isWrite)

variable {p : Params} {numCmds : Nat}

/-- The arbiters for the interfaces keep their choice until it is taken, and no arbiter passes over a request for
ever. -/
structure FairArbiters (inputs : Nat → Input p numCmds) : Prop where
  locked : ∀ j t, cmdArbValid (runAt inputs t).unit j = true → accepted inputs j t = none →
    (inputs (t + 1)).cmdIdx j = (inputs t).cmdIdx j
  cmdArbiter : ∀ j c t, (∀ u, t ≤ u → intfMuxValid (runAt inputs u).unit j c = true) →
    (∀ v, t ≤ v → ∃ u, v ≤ u ∧ accepted inputs j u ≠ none) →
      ∃ u, t ≤ u ∧ (inputs u).cmdIdx j = c ∧ accepted inputs j u ≠ none
  respArbiter : ∀ j t, ∃ u, t ≤ u ∧ (respBufferValid (runAt inputs u).unit j = true → (inputs u).respIdx = j)
  dmaRespArbiter : ∀ d t, ∃ u, t ≤ u ∧
    (SocDma.fifoRespAvail (runAt inputs u).dma d = true → (inputs u).dmaRespIdx = d)

/-- The other parties take what is offered to them and finish what they have taken. -/
structure Fair (inputs : Nat → Input p numCmds) (links : Links) : Prop extends FairArbiters inputs where
  buffSize : 2 ≤ p.intfRespBuffSize
  awDepth : 0 < p.host.awFifoDepth
  arDepth : 0 < p.host.arFifoDepth
  wDepth : 0 < p.host.wFifoDepth
  writesDepth : 0 < p.host.writesFifoDepth
  readsDepth : 0 < p.host.readsFifoDepth
  named : ∀ {x cmd}, handedOver inputs x = some cmd → cmd.intfId < 3
  nicTakes : ∀ t, (∀ u, t ≤ u → intfValid (runAt inputs u).unit nic = true) →
    ∃ u, t ≤ u ∧ (inputs u).nicCmdReady = true
  nicAnswers : Total (accepted inputs nic) links.nic
  engineTakes : ∀ d t, (∀ u, t ≤ u → SocDma.reqValid (dmaInputs inputs u) d = true) →
    ∃ u, t ≤ u ∧ (inputs u).dmaReqReady d = true
  engineCompletes : ∀ d, Total (SocDma.started (dmaInputs inputs) d) (links.engine d)
  host : HostDirect.HostFair p.host (hostInputs inputs)

variable {inputs : Nat → Input p numCmds} {links : Links}

section Responses

variable (hEnv : Environment inputs links) (hFair : Fair inputs links)
include hEnv hFair

theorem total_answeredIn (j : Intf) : Total (accepted inputs j) (AnsweredIn inputs links j) := by
  rcases intf_cases j with rfl | rfl | rfl
  · change Total _ fun y v => ∃ w, InOrder (channel isWrite (accepted inputs hdir) w) _ y v
    rw [accepted_hdir hEnv]
    exact Total.channels (HostDirect.total_popped hEnv.hostSound hFair.host)
  · exact hFair.nicAnswers
  · change Total _ fun y v => ∃ d, InOrder (channel directionOf (accepted inputs edma) d) _ y v
    rw [accepted_edma hEnv]
    refine Total.channels fun d =>
      SocDma.total_popped hEnv.engineSound (fun d t => dma_room hEnv t d) (fun {_ t} hn => ?_) fun t => ?_
    · obtain ⟨u, _, hReached⟩ := (hEnv.engine d).exists_length_le (hFair.engineCompletes d) t
      exact ⟨u, Nat.lt_of_lt_of_le hn hReached⟩
    · obtain ⟨u, htu, hIdx⟩ := hFair.dmaRespArbiter d t
      exact ⟨u, htu, runAt_dma inputs u ▸ hIdx⟩

theorem total_grantedIn (j : Intf) : AllFollowed (answered inputs j) (granted inputs j) := by
  refine total_granted hEnv.arbiters (length_answered_le hEnv) fun t => ?_
  obtain ⟨u, htu, hIdx⟩ := hFair.respArbiter j t
  exact ⟨u, htu, runAt_unit inputs u ▸ hIdx⟩

theorem eventually_space {j : Intf} {t : Nat} (hSilent : ∀ u, t ≤ u → accepted inputs j u = none) :
    ∃ u, t ≤ u ∧ ∀ v, u ≤ v → reqHasSpace (runAt inputs v).unit j = true := by
  have hMatch : Matching (accepted inputs j) (granted inputs j) (fun cmd id => id = cmd.cmdId) _ :=
    (matching_answeredIn hEnv j).trans (matching_granted hEnv.arbiters (length_answered_le hEnv) j)
      fun cmd id id' h h' => h'.trans h
  obtain ⟨u, htu, hReached⟩ := hMatch.exists_length_le
    (Total.trans (matching_answeredIn hEnv j) (total_answeredIn hEnv hFair j) (total_grantedIn hEnv hFair j)) t
  refine ⟨u, htu, fun v huv => ?_⟩
  have hFlow : (eventsOf (granted inputs j) v).length + ((CmdUnit.runAt (unitInputs inputs) v).reqFifo j).length =
      (eventsOf (accepted inputs j) v).length :=
    (flow hEnv.arbiters fun w _ => length_answered_le hEnv j w).1
  have hMono := (eventsOf_mono (granted inputs j) huv).length_le
  have hSize := hFair.buffSize
  rw [eventsOf_of_silent hSilent (Nat.le_trans htu huv)] at hFlow
  have hRoom : ((CmdUnit.runAt (unitInputs inputs) v).reqFifo j).length < p.intfRespBuffSize - 1 := by omega
  rw [runAt_unit]
  have hSpace := reqHasSpace_eq (p := p.unit) j (length_reqFifo_le (unitInputs inputs) j v)
  exact hSpace.trans (decide_eq_true hRoom)

omit hFair in
theorem offered_kept (hLocked : ∀ j t, cmdArbValid (runAt inputs t).unit j = true → accepted inputs j t = none →
      (inputs (t + 1)).cmdIdx j = (inputs t).cmdIdx j) {j : Intf} {t : Nat}
    (hValid : ∀ u, t ≤ u → cmdArbValid (runAt inputs u).unit j = true)
    (hSilent : ∀ u, t ≤ u → accepted inputs j u = none) :
    ∃ cmd, ∀ u, t ≤ u → offered (runAt inputs u) (inputs u) j = cmd := by
  have hOffer : ∃ cmd, clusterCmd (runAt inputs t).unit ((inputs t).cmdIdx j) = some cmd ∧
      cmd.intfId = j.val := by
    obtain ⟨c, hc⟩ := cmdArbValid_eq_true.mp (hValid t (Nat.le_refl t))
    exact intfMuxValid_eq_true.mp ((runAt_unit inputs t ▸ hEnv.arbiters t).cmd j c hc)
  obtain ⟨cmd, hCmd, hIntf⟩ := hOffer
  refine ⟨cmd, fun u htu => ?_⟩
  have hKept : clusterCmd (runAt inputs u).unit ((inputs u).cmdIdx j) = some cmd := by
    induction u, htu using Nat.le_induction with
    | base => exact hCmd
    | succ u htu ih =>
      rw [hLocked j u (hValid u htu) (hSilent u htu)]
      refine clusterCmd_step ?_ ih
      by_contra hTakes
      obtain ⟨cmd', hTaken⟩ := Option.ne_none_iff_exists'.mp hTakes
      obtain rfl : cmd = cmd' := Option.some.inj (ih.symm.trans (takes_eq_some.mp hTaken).1)
      change takes (runAt inputs u).unit (unitInputs inputs u) _ = _ at hTaken
      rw [runAt_unit] at hTaken
      have hAccepted := (accepts_of_crosses (hEnv.arbiters u) hTaken hIntf).2
      exact Option.some_ne_none cmd (hAccepted.symm.trans (hSilent u htu))
  rw [offered, hKept]
  rfl

theorem eventually_ready_hdir {t : Nat} (hSilent : ∀ u, t ≤ u → accepted inputs hdir u = none) :
    ∃ u, t ≤ u ∧ (unitInputs inputs u).intfReady hdir = true := by
  rw [accepted_hdir hEnv] at hSilent
  obtain ⟨u, htu, hReady⟩ :=
    HostDirect.eventually_ready hEnv.hostSound hFair.host hFair.awDepth hFair.arDepth hFair.wDepth
    hFair.writesDepth hFair.readsDepth hSilent
  rw [← runAt_host] at hReady
  exact ⟨u, htu, hReady⟩

theorem eventually_ready_edma {t : Nat} (hValid : ∀ u, t ≤ u → intfValid (runAt inputs u).unit edma = true)
    (hSilent : ∀ u, t ≤ u → accepted inputs edma u = none) :
    ∃ u, t ≤ u ∧ (unitInputs inputs u).intfReady edma = true := by
  obtain ⟨cmd, hCmd⟩ :=
    offered_kept hEnv hFair.locked (fun u htu => (Bool.and_eq_true_iff.mp (hValid u htu)).1) hSilent
  obtain ⟨u, htu, hReady⟩ := hFair.engineTakes (directionOf cmd) t fun u htu => by
    change (intfValid (runAt inputs u).unit edma &&
      decide (directionOf (offered (runAt inputs u) (inputs u) edma) = _)) = true
    rw [hValid u htu, hCmd u htu, decide_eq_true rfl]
    rfl
  refine ⟨u, htu, ?_⟩
  have hRoom := dma_room hEnv u (directionOf cmd)
  rw [← runAt_dma] at hRoom
  have hFull : SocDma.fifoFull (runAt inputs u).dma (directionOf cmd) = false :=
    decide_eq_false (Nat.not_le_of_lt hRoom)
  change (intfValid (runAt inputs u).unit edma &&
    (!SocDma.fifoFull (runAt inputs u).dma (directionOf (offered (runAt inputs u) (inputs u) edma)) &&
      (inputs u).dmaReqReady (directionOf (offered (runAt inputs u) (inputs u) edma)))) = true
  rw [hCmd u htu, hValid u htu, hFull, hReady]
  rfl

theorem exists_accepted {j : Intf} {t : Nat} (hValid : ∀ u, t ≤ u → cmdArbValid (runAt inputs u).unit j = true) :
    ∃ u, t ≤ u ∧ accepted inputs j u ≠ none := by
  by_contra hNever
  push Not at hNever
  obtain ⟨u, htu, hSpace⟩ := eventually_space hEnv hFair hNever
  have hOffered : ∀ v, u ≤ v → intfValid (runAt inputs v).unit j = true := fun v huv =>
    Bool.and_eq_true_iff.mpr ⟨hValid v (Nat.le_trans htu huv), hSpace v huv⟩
  have hSilent : ∀ v, u ≤ v → accepted inputs j v = none := fun v huv => hNever v (Nat.le_trans htu huv)
  obtain ⟨v, huv, hReady⟩ : ∃ v, u ≤ v ∧ (unitInputs inputs v).intfReady j = true := by
    rcases intf_cases j with rfl | rfl | rfl
    · exact eventually_ready_hdir hEnv hFair hSilent
    · exact hFair.nicTakes u hOffered
    · exact eventually_ready_edma hEnv hFair hOffered hSilent
  have hAccepted := accepted_eq hEnv j v
  rw [hOffered v huv, hReady, hSilent v huv] at hAccepted
  exact Option.some_ne_none _ hAccepted.symm

theorem exists_taken {c : Fin p.numClusters} {t : Nat}
    (hWaiting : ((CmdUnit.runAt (unitInputs inputs) t).clusterSpill c).contents ≠ []) :
    ∃ u, t ≤ u ∧ CmdUnit.taken (unitInputs inputs) c u ≠ none := by
  by_contra hNever
  push Not at hNever
  obtain ⟨cmd, rest, hContents⟩ := List.exists_cons_of_ne_nil hWaiting
  have hKept : ∀ u, t ≤ u → clusterCmd (CmdUnit.runAt (unitInputs inputs) u) c = some cmd := by
    intro u htu
    induction u, htu using Nat.le_induction with
    | base => rw [clusterCmd, SpillRegister.dataO_eq_head?, hContents]; rfl
    | succ u htu ih => exact clusterCmd_step (hNever u htu) ih
  have hIntf : cmd.intfId < 3 := by
    have hLaw := eventsOf_append_queue (fun cmd => cmd)
      (fun u => ((CmdUnit.runAt (unitInputs inputs) u).clusterSpill c).contents) rfl
      (taken_step (unitInputs inputs) c) t
    have hMem : cmd ∈ eventsOf (CmdUnit.handedOver (unitInputs inputs) c) t := by
      rw [List.map_id'] at hLaw
      rw [← hLaw, hContents]
      exact List.mem_append_right _ List.mem_cons_self
    obtain ⟨u, _, hu⟩ := mem_eventsOf.mp hMem
    exact hFair.named (x := (c, u)) hu
  have hMux : ∀ u, t ≤ u → intfMuxValid (runAt inputs u).unit ⟨cmd.intfId, hIntf⟩ c = true := by
    intro u htu
    rw [runAt_unit]
    exact intfMuxValid_eq_true.mpr ⟨cmd, hKept u htu, rfl⟩
  obtain ⟨u, htu, hIdx, hAccepted⟩ := hFair.cmdArbiter ⟨cmd.intfId, hIntf⟩ c t hMux fun v htv =>
    exists_accepted hEnv hFair fun u hvu => cmdArbValid_eq_true.mpr ⟨c, hMux u (Nat.le_trans htv hvu)⟩
  obtain ⟨cmd', hCmd'⟩ := Option.ne_none_iff_exists'.mp hAccepted
  have hTakes : CmdUnit.taken (unitInputs inputs) ((inputs u).cmdIdx ⟨cmd.intfId, hIntf⟩) u = some cmd' :=
    ((accepts_eq_some (hEnv.arbiters u)).mp hCmd').1
  rw [hIdx, hNever u htu] at hTakes
  cases hTakes

theorem total_delivered : Total (handedOver inputs) (Delivered inputs) := by
  rintro ⟨c, x⟩ cmd hCmd
  obtain ⟨y, hOrder⟩ := total_of_queue (fun cmd => cmd)
    (fun u => ((CmdUnit.runAt (unitInputs inputs) u).clusterSpill c).contents) rfl
    (taken_step (unitInputs inputs) c)
    (fun _ => exists_taken hEnv hFair) x cmd hCmd
  obtain ⟨_, cmd', hCmd', hTaken, rfl⟩ := (matching_taken (unitInputs inputs) c).agree hOrder
  exact ⟨(⟨cmd'.intfId, (takes_eq_some.mp hTaken).2.1⟩, y), hOrder, cmd', hTaken, rfl⟩

theorem total_served : Total (handedOver inputs) (Served inputs links) := by
  intro x cmd hCmd
  obtain ⟨⟨j, y⟩, hDelivered⟩ := total_delivered hEnv hFair x cmd hCmd
  obtain ⟨_, cmd', _, hAccepted, _⟩ := (matching_delivered hEnv).agree hDelivered
  obtain ⟨v, hAnswer⟩ := total_answeredIn hEnv hFair j y cmd' hAccepted
  obtain ⟨_, id, _, hId, _⟩ := (matching_answeredIn hEnv j).agree hAnswer
  obtain ⟨g, hOrder⟩ := total_grantedIn hEnv hFair j v id hId
  obtain ⟨w, hwv, hCompleted⟩ := completed_of_answered hEnv hAnswer
  exact ⟨g + 1, j, y, w, v, hDelivered, hCompleted, hwv, hAnswer, g, hOrder, rfl⟩

end Responses

end FPsPIN.CmdUnit.System
