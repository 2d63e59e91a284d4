import FPsPIN.CmdUnit.Progress

/-!
# The contract of the command path

All that the command unit and its interfaces promise together: a command is
delivered once, to the interface that it names, starts one transfer there, and
is answered once, after the transfer has completed. The response buffers cannot
overflow. Under fairness every command comes to its end.
-/

namespace FPsPIN.CmdUnit.System

open CmdDescr CommonCells Config Events Run
open SocDma (Direction directionOf xferDescr)
open HostDirect (isWrite wDescrOf)

variable {p : Params} {numCmds : Nat}

structure Contract (inputs : Nat → Input p numCmds) (links : Links) : Prop where
  delivered : Matching (handedOver inputs) (acceptedAt inputs) (fun cmd cmd' => cmd' = cmd) (Delivered inputs)
  named : ∀ {j t cmd}, accepted inputs j t = some cmd → cmd.intfId = j.val
  edmaStarted : ∀ d t,
    SocDma.started (dmaInputs inputs) d t = (channel directionOf (accepted inputs edma) d t).map xferDescr
  hostWriteAddress : Follows (channel isWrite (accepted inputs hdir) true)
    (HostDirect.awSent p.host (hostInputs inputs)) (fun cmd addr => addr = (hostDirectCmd cmd.words).hostAddr)
  hostWriteData : Follows (channel isWrite (accepted inputs hdir) true)
    (HostDirect.wSent p.host (hostInputs inputs)) (fun cmd beat => beat = wDescrOf (hostDirectCmd cmd.words))
  hostReadAddress : Follows (channel isWrite (accepted inputs hdir) false)
    (HostDirect.arSent p.host (hostInputs inputs)) (fun cmd addr => addr = (hostDirectCmd cmd.words).hostAddr)
  edmaCompleted : ∀ d, Matching (channel directionOf (accepted inputs edma) d)
    (SocDma.completed (dmaInputs inputs) d) (fun _ _ => True) (links.engine d)
  hostCompleted : ∀ b, Matching (channel isWrite (accepted inputs hdir) b)
    (HostDirect.completed (hostInputs inputs) b) (fun _ _ => True) (fun y w => ∃ a,
      InOrder (channel isWrite (accepted inputs hdir) b) (HostDirect.sent p.host (hostInputs inputs) b) y a ∧
        links.host b a w)
  servedOnce : Matching (handedOver inputs) (broadcast inputs) (fun cmd id => id = cmd.cmdId)
    (Served inputs links)
  bufferRoom : ∀ {j t id}, answered inputs j t = some id →
    ((runAt inputs t).unit.respFifo j).length < p.intfRespBuffSize
  outstanding : ∀ j t, (eventsOf (accepted inputs j) t).length ≤
    (eventsOf (granted inputs j) t).length + (p.intfRespBuffSize - 1)
  progress : Fair inputs links → Total (handedOver inputs) (Served inputs links)
  hostProgress : Fair inputs links →
    AllFollowed (channel isWrite (accepted inputs hdir) true) (HostDirect.awSent p.host (hostInputs inputs)) ∧
    AllFollowed (channel isWrite (accepted inputs hdir) true) (HostDirect.wSent p.host (hostInputs inputs)) ∧
    AllFollowed (channel isWrite (accepted inputs hdir) false) (HostDirect.arSent p.host (hostInputs inputs))

section Witness

def instanceParams : Params where
  numClusters := 3
  intfRespBuffSize := 8
  intfRespBuffSize_pos := Nat.succ_pos 7
  dma := ⟨12, 64⟩
  host := ⟨16, 16, 16, 32, 32⟩
  buffSize_le := Nat.le_of_ble_eq_true rfl

theorem fourIds_pos : 0 < 4 := Nat.succ_pos 3

/-- A command of cluster c for interface j: to the host, and of more than zero bytes, for host_direct and DMA. -/
def commandFor (c j : Nat) : PspinCmd 4 where
  intfId := j
  cmdId := ⟨c, 0, ⟨0, fourIds_pos⟩⟩
  cmdType := .hostMemCpy
  words w := if w.val = 2 then 17 else if w.val = 3 || w.val = 4 then 1 else 0
  generateEvent := false

/-- In cycle 0 each of three clusters hands over a command, for host_direct, NIC and DMA. -/
def threeCommands (t : Nat) : Input instanceParams 4 where
  cmdValid _ := t == 0
  cmd c := commandFor c.val c.val
  cmdIdx j := ⟨j.val, j.isLt⟩
  respIdx := if t = 3 then nic else if t = 5 then edma else hdir
  nicCmdReady := true
  nicCmdRespValid := t == 2
  nicCmdResp := (commandFor 1 1).cmdId
  dmaReqReady _ := true
  dmaRespValid d := t == 3 && decide (d = .rx)
  dmaRespIdx := .rx
  awReady := true
  arReady := true
  wReady := true
  bValid := t == 3
  rValid := false
  stale := commandFor 0 0

theorem threeCommands_arbiters : ∀ t < 7, ∀ j : Intf,
    (∀ c, intfMuxValid (runAt threeCommands t).unit j c = true →
      intfMuxValid (runAt threeCommands t).unit j ((threeCommands t).cmdIdx j) = true) ∧
      (respBufferValid (runAt threeCommands t).unit j = true →
        respBufferValid (runAt threeCommands t).unit (threeCommands t).respIdx = true) := by
  decide +kernel

theorem eq_init {s : State instanceParams 4}
    (h : (∀ c, s.unit.clusterSpill c = SpillRegister.empty) ∧
      (∀ j : Intf, s.unit.reqFifo j = [] ∧ s.unit.respFifo j = []) ∧ s.unit.respSpill = SpillRegister.empty ∧
      (s.dma.respFifo .rx = [] ∧ s.dma.respFifo .tx = [] ∧ s.dma.toPopQ .rx = 0 ∧ s.dma.toPopQ .tx = 0) ∧
      s.host.aw = [] ∧ s.host.ar = [] ∧ s.host.w = [] ∧ s.host.writeId = [] ∧ s.host.readId = []) :
    s = init instanceParams 4 := by
  obtain ⟨⟨spill, req, resp, out⟩, ⟨queue, count⟩, aw, ar, w, writeId, readId⟩ := s
  obtain ⟨hSpill, hFifo, rfl, ⟨hRx, hTx, hCountRx, hCountTx⟩, rfl, rfl, rfl, rfl, rfl⟩ := h
  obtain rfl : spill = fun _ => SpillRegister.empty := funext hSpill
  obtain rfl : req = fun _ => [] := funext fun j => (hFifo j).1
  obtain rfl : resp = fun _ => [] := funext fun j => (hFifo j).2
  obtain rfl : queue = fun _ => [] := by
    funext d
    cases d
    · exact hRx
    · exact hTx
  obtain rfl : count = fun _ => 0 := by
    funext d
    cases d
    · exact hCountRx
    · exact hCountTx
  rfl

theorem threeCommands_idle {t : Nat} (ht : 7 ≤ t) : runAt threeCommands t = init instanceParams 4 := by
  have hInput : ∀ t, 7 ≤ t → threeCommands t = threeCommands 7 := by
    intro t ht
    simp only [threeCommands, beq_false_of_ne (by omega : t ≠ 0), beq_false_of_ne (by omega : t ≠ 2),
      beq_false_of_ne (by omega : t ≠ 3), if_neg (by omega : t ≠ 3), if_neg (by omega : t ≠ 5)]
    rfl
  induction t, ht using Nat.le_induction with
  | base => exact eq_init (by decide +kernel)
  | succ t ht ih =>
    have hStep : runAt threeCommands (t + 1) = step (init instanceParams 4) (threeCommands 7) := by
      rw [← ih, ← hInput t ht]
      rfl
    rw [hStep]
    exact eq_init (by decide +kernel)

/-- The NIC answers in cycle 2 the command that it has accepted in cycle 1. -/
def threeLinks : Links where
  nic y v := y = 1 ∧ v = 2
  engine d := InOrder (SocDma.started (dmaInputs threeCommands) d) (SocDma.completed (dmaInputs threeCommands) d)
  host b := InOrder (HostDirect.sent instanceParams.host (hostInputs threeCommands) b)
    (HostDirect.completed (hostInputs threeCommands) b)

theorem threeCommands_accepted {j : Intf} {t : Nat} (ht : 7 ≤ t) : accepted threeCommands j t = none := by
  change accepts (CmdUnit.runAt (unitInputs threeCommands) t) _ j = none
  rw [← runAt_unit, threeCommands_idle ht]
  rfl

theorem threeCommands_completed {d : Direction} {t : Nat} (ht : 7 ≤ t) :
    SocDma.completed (dmaInputs threeCommands) d t = none := by
  change (if t == 3 && decide (d = .rx) then some () else none) = none
  rw [beq_false_of_ne (by omega : t ≠ 3)]
  rfl

theorem threeCommands_responds {b : Bool} {t : Nat} (ht : 7 ≤ t) :
    HostDirect.completed (hostInputs threeCommands) b t = none := by
  cases b with
  | false => rfl
  | true =>
    change (if (!false && t == 3) && t == 3 then some () else none) = none
    rw [beq_false_of_ne (by omega : t ≠ 3)]
    rfl

theorem length_le_of_start {A B : Type} {ev : Nat → Option A} {ev' : Nat → Option B} {n : Nat}
    (hStart : ∀ t ≤ n, (eventsOf ev t).length ≤ (eventsOf ev' t).length)
    (hSilent : ∀ t, n ≤ t → ev t = none)
    (t : Nat) :
    (eventsOf ev t).length ≤ (eventsOf ev' t).length := by
  rcases Nat.le_total t n with ht | ht
  · exact hStart t ht
  · rw [eventsOf_of_silent hSilent ht]
    exact (hStart n (Nat.le_refl n)).trans (eventsOf_mono ev' ht).length_le

theorem threeCommands_engine (d : Direction) (t : Nat) :
    (eventsOf (SocDma.completed (dmaInputs threeCommands) d) t).length ≤
    (eventsOf (SocDma.started (dmaInputs threeCommands) d) t).length := by
  refine length_le_of_start (n := 7) ?_ (fun _ hu => threeCommands_completed hu) t
  cases d <;> decide +kernel

theorem threeCommands_host (b : Bool) (t : Nat) :
    (eventsOf (HostDirect.completed (hostInputs threeCommands) b) t).length ≤
    (eventsOf (HostDirect.sent instanceParams.host (hostInputs threeCommands) b) t).length := by
  refine length_le_of_start (n := 7) ?_ (fun _ hu => threeCommands_responds hu) t
  cases b <;> decide +kernel

theorem threeCommands_environment : Environment threeCommands threeLinks where
  arbiters t := by
    rw [← runAt_unit]
    rcases Nat.lt_or_ge t 7 with ht | ht
    · exact ⟨fun j => (threeCommands_arbiters t ht j).1, fun j => (threeCommands_arbiters t ht j).2⟩
    · rw [threeCommands_idle ht]
      exact ⟨fun _ _ h => (nomatch h), fun _ h => (nomatch h)⟩
  dmaArbiter t := by
    have hStart : ∀ t < 7, SocDma.fifoRespAvail (runAt threeCommands t).dma .tx = false := by decide +kernel
    rw [← runAt_dma]
    rintro (_ | _) hAvail
    · exact hAvail
    · rcases Nat.lt_or_ge t 7 with ht | ht
      · rw [hStart t ht] at hAvail
        cases hAvail
      · rw [threeCommands_idle ht] at hAvail
        cases hAvail
  engine d := matching_of_le (threeCommands_engine d)
  engineLater h := h.1
  engineInOrder d := noOvertaking_inOrder (threeCommands_engine d)
  host b := matching_of_le (threeCommands_host b)
  hostLater h := h.1
  hostInOrder b := noOvertaking_inOrder (threeCommands_host b)
  hostData := length_le_of_start (n := 7) (by decide +kernel) fun _ hu => threeCommands_responds hu
  nicAnswers := by
    have hAnswered : ∀ {v id}, answered threeCommands nic v = some id → v = 2 := by
      intro v id hId
      by_contra hv
      change (if v == 2 then some (commandFor 1 1).cmdId else none) = some id at hId
      rw [beq_false_of_ne hv] at hId
      cases hId
    have hAccepted : accepted threeCommands nic 1 = some (commandFor 1 1) := by decide +kernel
    refine ⟨?_, ?_, ?_, ?_⟩
    · rintro y v ⟨rfl, rfl⟩
      exact ⟨_, _, hAccepted, rfl, rfl⟩
    · intro v id hId
      exact ⟨1, rfl, hAnswered hId⟩
    · rintro y y' v ⟨rfl, _⟩ ⟨rfl, _⟩
      rfl
    · rintro y v v' ⟨_, rfl⟩ ⟨_, rfl⟩
      rfl
  nicLater := by
    rintro y v ⟨rfl, rfl⟩
    exact Nat.le_succ 1

theorem exists_of_end {A B : Type} {ev : Nat → Option A} {ev' : Nat → Option B} {n k t : Nat}
    (hEnd : (eventsOf ev n).length ≤ (eventsOf ev' n).length) (hSilent : ∀ t, n ≤ t → ev t = none)
    (hk : k < (eventsOf ev t).length) : ∃ u, k < (eventsOf ev' u).length := by
  have hMono : (eventsOf ev t).length ≤ (eventsOf ev n).length := by
    rcases Nat.le_total t n with ht | ht
    · exact (eventsOf_mono ev ht).length_le
    · rw [eventsOf_of_silent hSilent ht]
  exact ⟨n, Nat.lt_of_lt_of_le hk (hMono.trans hEnd)⟩

theorem threeCommands_fair : Fair threeCommands threeLinks where
  buffSize := by decide
  awDepth := by decide
  arDepth := by decide
  wDepth := by decide
  writesDepth := by decide
  readsDepth := by decide
  named := by
    rintro ⟨c, t⟩ cmd hCmd
    change (if (t == 0) && _ then some (commandFor c.val c.val) else none) = some cmd at hCmd
    rw [ite_eq_iff] at hCmd
    rcases hCmd with ⟨_, hCmd⟩ | ⟨_, hNone⟩
    · obtain rfl := Option.some.inj hCmd
      exact c.isLt
    · cases hNone
  locked _ _ _ _ := rfl
  cmdArbiter j c t hMux _ := by
    have hLate := hMux (max t 7) (Nat.le_max_left t 7)
    rw [threeCommands_idle (Nat.le_max_right t 7)] at hLate
    cases hLate
  respArbiter j t := by
    refine ⟨max t 7, Nat.le_max_left t 7, fun hValid => ?_⟩
    rw [threeCommands_idle (Nat.le_max_right t 7)] at hValid
    cases hValid
  nicTakes t _ := ⟨t, Nat.le_refl t, rfl⟩
  nicAnswers x cmd hCmd := by
    have hStart : ∀ x < 7, accepted threeCommands nic x ≠ none → x = 1 := by decide +kernel
    rcases Nat.lt_or_ge x 7 with hx | hx
    · exact ⟨2, hStart x hx (Option.ne_none_iff_exists'.mpr ⟨cmd, hCmd⟩), rfl⟩
    · rw [threeCommands_accepted hx] at hCmd
      cases hCmd
  engineTakes _ t _ := ⟨t, Nat.le_refl t, rfl⟩
  engineCompletes d := by
    refine total_of_served (threeCommands_engine d) fun hn => ?_
    refine exists_of_end (n := 7) (by cases d <;> decide +kernel) (fun u hu => ?_) hn
    change (if (intfValid (runAt threeCommands u).unit edma && _) && true then _ else none) = none
    rw [threeCommands_idle hu]
    rfl
  dmaRespArbiter d t := by
    refine ⟨max t 7, Nat.le_max_left t 7, fun hAvail => ?_⟩
    rw [threeCommands_idle (Nat.le_max_right t 7)] at hAvail
    cases hAvail
  host :=
    { writePort := ⟨fun t => ⟨t, Nat.le_refl t, rfl⟩, fun t => ⟨t, Nat.le_refl t, rfl⟩⟩
      ar := fun t => ⟨t, Nat.le_refl t, rfl⟩
      answersWrites := fun hAw _ => by
        refine exists_of_end (n := 7) (by decide +kernel) (fun u hu => ?_) hAw
        rw [HostDirect.awSent, ← runAt_host, threeCommands_idle hu]
        rfl
      answersReads := fun hAr => by
        refine exists_of_end (n := 7) (by decide +kernel) (fun u hu => ?_) hAr
        rw [HostDirect.arSent, ← runAt_host, threeCommands_idle hu]
        rfl }

end Witness

end FPsPIN.CmdUnit.System
