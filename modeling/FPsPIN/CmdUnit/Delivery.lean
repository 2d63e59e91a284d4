import FPsPIN.CmdUnit.System

/-!
# Every command is executed and answered once

The way of a command from the cluster to the broadcast of its id: it leaves the
register of the cluster when the interface that it names accepts it, starts a
transfer there, and after the completion of the transfer its id goes through
the response buffer of the interface. Each part is a matching, and so is the
whole way. That a command comes to its end is shown under fairness.
-/

namespace FPsPIN.CmdUnit.System

open CommonCells Config Events Run
open SocDma (Direction directionOf xferDescr)
open HostDirect (isWrite)

variable {p : Params} {numCmds : Nat}

section Way

variable (inputs : Nat → Input p numCmds) (links : Links)

/-- Cluster x.1 hands over a command in cycle x.2. -/
def handedOver (x : Fin p.numClusters × Nat) : Option (PspinCmd numCmds) :=
  CmdUnit.handedOver (unitInputs inputs) x.1 x.2

def acceptedAt (y : Intf × Nat) : Option (PspinCmd numCmds) := accepted inputs y.1 y.2

def granted (j : Intf) : Nat → Option (PspinCmdId numCmds) := CmdUnit.granted (unitInputs inputs) j

def broadcast : Nat → Option (PspinCmdId numCmds) := CmdUnit.broadcast (unitInputs inputs)

/-- The command handed over at x is the one accepted at y. -/
def Delivered (x : Fin p.numClusters × Nat) (y : Intf × Nat) : Prop :=
  InOrder (CmdUnit.handedOver (unitInputs inputs) x.1) (CmdUnit.taken (unitInputs inputs) x.1) x.2 y.2 ∧
    Crosses (CmdUnit.runAt (unitInputs inputs) y.2) (unitInputs inputs y.2) x.1 y.1

/-- The response of interface j in cycle v is that to the command accepted in cycle y. -/
def AnsweredIn (j : Intf) (y v : Nat) : Prop :=
  wires
    (∃ d, InOrder (channel directionOf (accepted inputs edma) d) (SocDma.popped p.dma (dmaInputs inputs) d) y v)
    (links.nic y v)
    (∃ w, InOrder (channel isWrite (accepted inputs hdir) w)
      (HostDirect.popped p.host (hostInputs inputs) w) y v) j

/-- The transfer of the command accepted in cycle y completes in cycle w. -/
def CompletedIn (j : Intf) (y w : Nat) : Prop :=
  wires (∃ d, links.engine d y w) (links.nic y w)
    (∃ b a, InOrder (channel isWrite (accepted inputs hdir) b)
      (HostDirect.sent p.host (hostInputs inputs) b) y a ∧
      links.host b a w) j

/-- The response of interface j in cycle v is broadcast in cycle z. -/
def Broadcast (j : Intf) (v z : Nat) : Prop := ∃ g, InOrder (answered inputs j) (granted inputs j) v g ∧ z = g + 1

/-- The whole way, with the cycles of acceptance, completion and response. -/
def Served (x : Fin p.numClusters × Nat) (z : Nat) : Prop :=
  ∃ j y w v, Delivered inputs x (j, y) ∧ CompletedIn inputs links j y w ∧ w ≤ v ∧
    AnsweredIn inputs links j y v ∧
    Broadcast inputs j v z

end Way

section Safety

variable {inputs : Nat → Input p numCmds} {links : Links} (hEnv : Environment inputs links)
include hEnv

theorem matching_delivered :
    Matching (handedOver inputs) (acceptedAt inputs) (fun cmd cmd' => cmd' = cmd) (Delivered inputs) := by
  have hTaken := Matching.ports (matching_taken (unitInputs inputs))
  refine (hTaken.trans (matching_accepted hEnv.arbiters) fun a b c hab hbc => hbc.trans hab).of_iff ?_
  rintro ⟨c, x⟩ ⟨j, y⟩
  constructor
  · rintro ⟨hOrder, hCrosses⟩
    exact ⟨⟨c, y⟩, ⟨rfl, hOrder⟩, rfl, hCrosses⟩
  · rintro ⟨⟨_, _⟩, ⟨rfl, hOrder⟩, rfl, hCrosses⟩
    exact ⟨hOrder, hCrosses⟩

theorem accepted_named {j : Intf} {t : Nat} {cmd : PspinCmd numCmds} (h : accepted inputs j t = some cmd) :
    cmd.intfId = j.val := ((accepts_eq_some (hEnv.arbiters t)).mp h).2

theorem answered_edma_eq : answered inputs edma = SocDma.answered p.dma (dmaInputs inputs) :=
  funext fun _ => answered_edma hEnv fun d u _ => dma_room hEnv u d

theorem matching_answeredIn (j : Intf) :
    Matching (accepted inputs j) (answered inputs j) (fun cmd id => id = cmd.cmdId)
      (AnsweredIn inputs links j) := by
  rcases intf_cases j with rfl | rfl | rfl
  · rw [answered_hdir hEnv]
    change Matching _ _ _ fun y v => ∃ w, InOrder (channel isWrite (accepted inputs hdir) w) _ y v
    rw [accepted_hdir hEnv]
    exact HostDirect.matching_answered p.host (hostInputs inputs)
  · exact hEnv.nicAnswers
  · rw [answered_edma_eq hEnv]
    change Matching _ _ _ fun y v => ∃ d, InOrder (channel directionOf (accepted inputs edma) d) _ y v
    rw [accepted_edma hEnv]
    exact SocDma.matching_answered hEnv.dmaArbiter

theorem edmaStarted (d : Direction) (t : Nat) :
    SocDma.started (dmaInputs inputs) d t = (channel directionOf (accepted inputs edma) d t).map xferDescr := by
  rw [accepted_edma hEnv]
  exact SocDma.starts_eq (dma_room hEnv t d)

theorem engine_iff {d : Direction} {y w : Nat} : links.engine d y w ↔
    InOrder (channel directionOf (accepted inputs edma) d) (SocDma.completed (dmaInputs inputs) d) y w := by
  rw [(hEnv.engine d).iff_inOrder hEnv.engineLater (hEnv.engineInOrder d), funext (edmaStarted hEnv d),
    inOrder_map]

theorem completed_of_answered {j : Intf} {y v : Nat} (h : AnsweredIn inputs links j y v) :
    ∃ w ≤ v, CompletedIn inputs links j y w := by
  rcases intf_cases j with rfl | rfl | rfl
  · obtain ⟨b, hPopped⟩ := h
    rw [accepted_hdir hEnv] at hPopped
    have hCompleted := HostDirect.completed_of_popped hEnv.hostSound hPopped
    obtain ⟨a, hSent, hAnswer⟩ := hCompleted.split
      ((HostDirect.matching_sent p.host (hostInputs inputs) b).length_le And.left)
      ((hEnv.host b).length_le hEnv.hostLater)
    refine ⟨v, Nat.le_refl v, b, a, ?_,
      ((hEnv.host b).iff_inOrder hEnv.hostLater (hEnv.hostInOrder b)).mpr hAnswer⟩
    rw [accepted_hdir hEnv]
    exact hSent
  · exact ⟨v, Nat.le_refl v, h⟩
  · obtain ⟨d, hPopped⟩ := h
    rw [accepted_edma hEnv] at hPopped
    obtain ⟨w, hwv, hCompleted⟩ :=
      SocDma.completed_of_popped hEnv.engineSound (fun d t => dma_room hEnv t d) hPopped
    rw [← accepted_edma hEnv] at hCompleted
    exact ⟨w, Nat.le_of_lt hwv, d, (engine_iff hEnv).mpr hCompleted⟩

theorem answeredIn_le {j : Intf} {y v : Nat} (h : AnsweredIn inputs links j y v) : y ≤ v := by
  rcases intf_cases j with rfl | rfl | rfl
  · obtain ⟨_, hLe, _⟩ := h
    exact hLe
  · exact hEnv.nicLater h
  · obtain ⟨_, hLe, _⟩ := h
    exact hLe

theorem length_answered_le (j : Intf) (t : Nat) :
    (eventsOf (answered inputs j) t).length ≤ (eventsOf (accepted inputs j) t).length :=
  (matching_answeredIn hEnv j).length_le (answeredIn_le hEnv) t

theorem matching_served :
    Matching (handedOver inputs) (broadcast inputs) (fun cmd id => id = cmd.cmdId) (Served inputs links) := by
  have hAnswered := Matching.ports (matching_answeredIn hEnv)
  have hGranted := Matching.ports (matching_granted hEnv.arbiters (length_answered_le hEnv))
  have hOut := hGranted.trans (matching_broadcast hEnv.arbiters) fun id id' id'' h h' => h'.trans h
  have hBack := hAnswered.trans hOut fun cmd id id' h h' => h'.trans h
  refine ((matching_delivered hEnv).trans hBack fun cmd cmd' id h h' =>
    h'.trans (congrArg PspinCmd.cmdId h)).of_iff ?_
  intro x z
  constructor
  · rintro ⟨j, y, w, v, hDelivered, _, _, hAnswer, g, hOrder, rfl⟩
    exact ⟨(j, y), hDelivered, (j, v), ⟨rfl, hAnswer⟩, (j, g), ⟨rfl, hOrder⟩, rfl, hOrder.2.2.1⟩
  · rintro ⟨⟨j, y⟩, hDelivered, ⟨_, v⟩, ⟨rfl, hAnswer⟩, ⟨_, g⟩, ⟨rfl, hOrder⟩, rfl, _⟩
    obtain ⟨w, hwv, hCompleted⟩ := completed_of_answered hEnv hAnswer
    exact ⟨j, y, w, v, hDelivered, hCompleted, hwv, hAnswer, g, hOrder, rfl⟩

end Safety

end FPsPIN.CmdUnit.System
