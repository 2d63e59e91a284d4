import FPsPIN.Scheduler.Block

/-!
# Delivery and occupancy

A task that was accepted while its cluster was not ready waits in a register
together with the chosen cluster, and nothing else is accepted meanwhile. So
deliveries keep the order of acceptance, and the room that the chosen cluster
had at the acceptance is still there at the delivery.
-/

namespace FPsPIN.Scheduler

open CommonCells Config Run

variable {p : Params}

section Cycle

variable (s : State p) (i : Input p)

def accepts : List HandlerTask := if i.taskValid && taskReady s i then [i.taskDescr] else []

def deliveries : List (ClusterId p × HandlerTask) :=
  ((List.finRange p.numClusters).filter (delivers s i)).map fun c => (c, clusterTaskDescr s i)

/-- The task that was accepted and not yet delivered. -/
def waiting : List HandlerTask := if s.stateQ == .waitTransfer then [s.taskQ] else []

def receives (c : ClusterId p) : List HandlerTask :=
  if i.clusterTaskReady c then (s.taskSpill c).dataO.toList else []

def feedbacks (c : ClusterId p) : List FeedbackDescr :=
  if clusterFeedbackGrant i c then (s.feedbackSpill c).dataO.toList else []

def handsBack (c : ClusterId p) : List FeedbackDescr :=
  if i.clusterFeedbackValid c && (s.feedbackSpill c).readyO then [i.clusterFeedback c] else []

theorem deliveries_eq :
    deliveries s i =
      if servingCluster s i && clusterReady s (clusterIdD s i) then [(clusterIdD s i, clusterTaskDescr s i)]
      else [] := by
  have hTarget : ∀ c, delivers s i c =
      (decide (c = clusterIdD s i) && (servingCluster s i && clusterReady s (clusterIdD s i))) := by
    intro c
    rw [delivers, clusterTaskValid]
    by_cases hc : c = clusterIdD s i
    · rw [hc, decide_eq_true rfl, Bool.true_and, Bool.true_and]
    · rw [decide_eq_false hc, decide_eq_false (Ne.symm hc)]
      rfl
  rw [deliveries, funext hTarget]
  cases servingCluster s i && clusterReady s (clusterIdD s i) with
  | false => simp
  | true =>
    have hOnce : (List.finRange p.numClusters).count (clusterIdD s i) = 1 :=
      List.count_eq_one_of_mem (List.nodup_finRange _) (List.mem_finRange _)
    simp only [Bool.and_true, if_true]
    rw [List.filter_eq, hOnce]
    rfl

theorem deliveries_step :
    (deliveries s i).map (·.2) ++ waiting (step s i) = waiting s ++ accepts s i := by
  rw [deliveries_eq]
  change _ ++ (if stateD s i == .waitTransfer then [taskD s i] else []) = _
  cases hState : s.stateQ with
  | servePacket =>
    have hDescr : clusterTaskDescr s i = i.taskDescr := by rw [clusterTaskDescr, hState]; rfl
    have hReady : taskReady s i = (i.taskValid && !noClusterAvail s) := by simp [taskReady, hState]
    rw [servingCluster, stateD, waiting, accepts, taskD, hDescr, hReady, hState]
    cases i.taskValid <;> cases noClusterAvail s <;> cases clusterReady s (clusterIdD s i) <;> rfl
  | waitTransfer =>
    have hDescr : clusterTaskDescr s i = s.taskQ := by rw [clusterTaskDescr, hState]; rfl
    have hTarget : clusterIdD s i = s.clusterIdQ := by rw [clusterIdD, hState]; rfl
    have hReady : taskReady s i = false := by simp [taskReady, hState]
    rw [servingCluster, stateD, waiting, accepts, taskD, hDescr, hTarget, hReady, hState, Bool.and_false]
    cases clusterReady s s.clusterIdQ <;> rfl

theorem deliveries_to (c : ClusterId p) :
    ((deliveries s i).filter (·.1 = c)).map (·.2) = if delivers s i c then [clusterTaskDescr s i] else [] := by
  rw [deliveries_eq, delivers, clusterTaskValid]
  by_cases hc : clusterIdD s i = c
  · subst hc
    cases servingCluster s i <;> cases clusterReady s (clusterIdD s i) <;> simp
  · rw [decide_eq_false hc]
    cases servingCluster s i && clusterReady s (clusterIdD s i) <;> simp [hc]

theorem length_feedbacks (c : ClusterId p) : (feedbacks s i c).length = (takesFeedback s i c).toNat := by
  rw [feedbacks, takesFeedback]
  obtain ⟨a, b⟩ := s.feedbackSpill c
  cases clusterFeedbackGrant i c <;> cases a <;> cases b <;> rfl

theorem receives_step (c : ClusterId p) :
    receives s i c ++ ((step s i).taskSpill c).contents =
      (s.taskSpill c).contents ++ if delivers s i c then [clusterTaskDescr s i] else [] :=
  SpillRegister.contents_step (s.taskSpill c) (clusterTaskValid s i c) (clusterTaskDescr s i)
    (i.clusterTaskReady c)

theorem feedbacks_step (c : ClusterId p) :
    feedbacks s i c ++ ((step s i).feedbackSpill c).contents = (s.feedbackSpill c).contents ++ handsBack s i c :=
  SpillRegister.contents_step (s.feedbackSpill c) (i.clusterFeedbackValid c) (i.clusterFeedback c)
    (clusterFeedbackGrant i c)

theorem cOccupMin_ready {c : ClusterId p} (hReady : clusterReady s c = true)
    (hRoom : (s.clusterOccupQ c).toNat < p.maxOcc) :
    clusterReady s (cOccupMin s) = true ∧ (s.clusterOccupQ (cOccupMin s)).toNat < p.maxOcc := by
  have hValue : occupValues s c.val = s.clusterOccupQ c := dif_pos c.isLt
  have hBit : readyBits s c.val = true := (dif_pos c.isLt).trans hReady
  have hBelow : occupValues s c.val < BitVec.allOnes p.occupWidth := by
    rw [hValue]
    exact BitVec.lt_def.mpr (Nat.lt_of_lt_of_le hRoom p.maxOcc_le)
  obtain ⟨hEnabled, hLe⟩ :=
    argmin4_enabled (occupValues s) (readyBits s) (Nat.lt_of_lt_of_le c.isLt p.numClusters_le) hBit hBelow
  have hIndex : argmin4 (occupValues s) (readyBits s) < p.numClusters := by
    by_contra hOut
    rw [readyBits, dif_neg hOut] at hEnabled
    cases hEnabled
  have hMin : cOccupMin s = ⟨argmin4 (occupValues s) (readyBits s), hIndex⟩ :=
    Fin.ext (Nat.mod_eq_of_lt hIndex)
  rw [readyBits, dif_pos hIndex] at hEnabled
  rw [hValue, occupValues, dif_pos hIndex, BitVec.le_def] at hLe
  rw [hMin]
  exact ⟨hEnabled, Nat.lt_of_le_of_lt hLe hRoom⟩

theorem selClusterId_room (hAvail : noClusterAvail s = false) :
    (s.clusterOccupQ (selClusterId s i)).toNat < p.maxOcc := by
  rw [selClusterId, canUseHomeCluster, hAvail, Bool.false_or]
  split_ifs with hHome
  · exact of_decide_eq_true (Bool.and_eq_true_iff.mp hHome).1
  · exact Nat.lt_of_not_le (of_decide_eq_false hAvail)

/-- Some cluster is ready and has room. -/
def Available : Prop := ∃ c, clusterReady s c = true ∧ (s.clusterOccupQ c).toNat < p.maxOcc

theorem delivered_at_once (hState : s.stateQ = .servePacket) (hValid : i.taskValid = true)
    (hAvail : Available s) :
    taskReady s i = true ∧ deliveries s i = [(selClusterId s i, i.taskDescr)] := by
  obtain ⟨c, hReady, hRoom⟩ := hAvail
  obtain ⟨hMinReady, hMinRoom⟩ := cOccupMin_ready s hReady hRoom
  have hSome : noClusterAvail s = false := decide_eq_false (Nat.not_le_of_lt hMinRoom)
  have hTarget : clusterIdD s i = selClusterId s i := by rw [clusterIdD, hState]; rfl
  have hDescr : clusterTaskDescr s i = i.taskDescr := by rw [clusterTaskDescr, hState]; rfl
  have hSelReady : clusterReady s (selClusterId s i) = true := by
    rw [selClusterId, canUseHomeCluster, hSome, Bool.false_or]
    split_ifs with hHome
    · exact (Bool.and_eq_true_iff.mp hHome).2
    · exact hMinReady
  constructor
  · simp [taskReady, hState, hValid, hSome]
  · rw [deliveries_eq, hTarget, hDescr, hSelReady, servingCluster, hState]
    simp [hValid, hSome]

theorem selClusterId_home (hReady : clusterReady s (homeClusterId i) = true)
    (hRoom : (s.clusterOccupQ (homeClusterId i)).toNat < p.maxOcc) : selClusterId s i = homeClusterId i := by
  rw [selClusterId, canUseHomeCluster, hReady, decide_eq_true hRoom, Bool.and_true, Bool.or_true, if_pos rfl]

theorem occup_step (c : ClusterId p)
    (hLow : (takesFeedback s i c).toNat ≤ (s.clusterOccupQ c).toNat + (delivers s i c).toNat)
    (hHigh : (s.clusterOccupQ c).toNat + (delivers s i c).toNat ≤ p.maxOcc) :
    ((step s i).clusterOccupQ c).toNat + (takesFeedback s i c).toNat =
      (s.clusterOccupQ c).toNat + (delivers s i c).toNat := by
  have hWidth := p.maxOcc_lt
  refine Counter.toNat_upDown (fun hBack => ?_) (by omega)
  rw [hBack] at hLow
  exact hLow

/-- The waiting task has a place in its cluster. -/
def Reserved : Prop := s.stateQ = .waitTransfer → (s.clusterOccupQ s.clusterIdQ).toNat < p.maxOcc

theorem clusterIdD_room (hReserved : Reserved s) (hServing : servingCluster s i = true) :
    (s.clusterOccupQ (clusterIdD s i)).toNat < p.maxOcc := by
  cases hState : s.stateQ with
  | servePacket =>
    rw [servingCluster, hState] at hServing
    rw [clusterIdD, hState]
    exact selClusterId_room s i (Bool.not_eq_true' _ ▸ (Bool.and_eq_true_iff.mp hServing).2)
  | waitTransfer =>
    rw [clusterIdD, hState]
    exact hReserved hState

theorem delivers_room (hReserved : Reserved s) {c : ClusterId p} (hBound : (s.clusterOccupQ c).toNat ≤ p.maxOcc) :
    (s.clusterOccupQ c).toNat + (delivers s i c).toNat ≤ p.maxOcc := by
  cases hTask : delivers s i c with
  | false => exact hBound
  | true =>
    rw [delivers, clusterTaskValid, Bool.and_eq_true, Bool.and_eq_true, decide_eq_true_eq] at hTask
    obtain ⟨⟨rfl, hServing⟩, _⟩ := hTask
    exact clusterIdD_room s i hReserved hServing

theorem stateD_waitTransfer (hWait : stateD s i = .waitTransfer) :
    servingCluster s i = true ∧ delivers s i (clusterIdD s i) = false := by
  have hTarget : s.stateQ = .waitTransfer → clusterIdD s i = s.clusterIdQ := by
    intro hState
    rw [clusterIdD, hState]
    rfl
  rw [stateD] at hWait
  rw [servingCluster, delivers]
  cases hState : s.stateQ with
  | servePacket =>
    rw [hState] at hWait
    simp only at hWait ⊢
    split_ifs at hWait with hServing hReady
    exact ⟨hServing, by rw [Bool.eq_false_of_not_eq_true hReady, Bool.and_false]⟩
  | waitTransfer =>
    rw [hState] at hWait
    simp only at hWait ⊢
    split_ifs at hWait with hReady
    exact ⟨trivial, by rw [hTarget hState, Bool.eq_false_of_not_eq_true hReady, Bool.and_false]⟩

theorem reserved_step (hReserved : Reserved s)
    (hOccup : ∀ c, ((step s i).clusterOccupQ c).toNat ≤ (s.clusterOccupQ c).toNat + (delivers s i c).toNat) :
    Reserved (step s i) := by
  intro hWait
  obtain ⟨hServing, hNot⟩ := stateD_waitTransfer s i hWait
  have hLe := hOccup (clusterIdD s i)
  rw [hNot] at hLe
  exact Nat.lt_of_le_of_lt hLe (clusterIdD_room s i hReserved hServing)

end Cycle

section Runs

variable (inputs : Nat → Input p)

def runAt (t : Nat) : State p := stateAt step (init p) inputs t

def acceptedOn (t : Nat) : List HandlerTask := window (fun u => accepts (runAt inputs u) (inputs u)) 0 t

def deliveredOn (t : Nat) : List (ClusterId p × HandlerTask) :=
  window (fun u => deliveries (runAt inputs u) (inputs u)) 0 t

def deliveredTo (c : ClusterId p) (t : Nat) : List HandlerTask :=
  ((deliveredOn inputs t).filter (·.1 = c)).map (·.2)

def receivedOn (c : ClusterId p) (t : Nat) : List HandlerTask :=
  window (fun u => receives (runAt inputs u) (inputs u) c) 0 t

def feedbacksOn (c : ClusterId p) (t : Nat) : List FeedbackDescr :=
  window (fun u => feedbacks (runAt inputs u) (inputs u) c) 0 t

def handedBackOn (c : ClusterId p) (t : Nat) : List FeedbackDescr :=
  window (fun u => handsBack (runAt inputs u) (inputs u) c) 0 t

theorem delivered_append_waiting (t : Nat) :
    (deliveredOn inputs t).map (·.2) ++ waiting (runAt inputs t) = acceptedOn inputs t := by
  rw [deliveredOn, map_window]
  exact window_append_queue (fun u => waiting (runAt inputs u)) rfl
    (fun u => deliveries_step (runAt inputs u) (inputs u)) t

theorem deliveredTo_eq (c : ClusterId p) (t : Nat) :
    deliveredTo inputs c t = window (fun u => if delivers (runAt inputs u) (inputs u) c
      then [clusterTaskDescr (runAt inputs u) (inputs u)] else []) 0 t := by
  rw [deliveredTo, deliveredOn, filter_window, map_window]
  exact window_congr fun u _ _ => deliveries_to (runAt inputs u) (inputs u) c

theorem received_append_contents (c : ClusterId p) (t : Nat) :
    receivedOn inputs c t ++ ((runAt inputs t).taskSpill c).contents = deliveredTo inputs c t := by
  rw [deliveredTo_eq]
  exact window_append_queue (fun u => ((runAt inputs u).taskSpill c).contents) rfl
    (fun u => receives_step (runAt inputs u) (inputs u) c) t

theorem feedbacks_append_contents (c : ClusterId p) (t : Nat) :
    feedbacksOn inputs c t ++ ((runAt inputs t).feedbackSpill c).contents = handedBackOn inputs c t :=
  window_append_queue (fun u => ((runAt inputs u).feedbackSpill c).contents) rfl
    (fun u => feedbacks_step (runAt inputs u) (inputs u) c) t

/-- Clusters that hand back no more feedbacks than they have received tasks meet the assumption below. -/
theorem feedbacks_le_delivered {c : ClusterId p} {t : Nat}
    (h : (handedBackOn inputs c t).length ≤ (receivedOn inputs c t).length) :
    (feedbacksOn inputs c t).length ≤ (deliveredTo inputs c t).length := by
  have hTasks := congrArg List.length (received_append_contents inputs c t)
  have hBack := congrArg List.length (feedbacks_append_contents inputs c t)
  rw [List.length_append] at hTasks hBack
  omega

variable {inputs}

theorem run_occup (hFeedback : ∀ c t, (feedbacksOn inputs c t).length ≤ (deliveredTo inputs c t).length)
    (t : Nat) :
    (∀ c, ((runAt inputs t).clusterOccupQ c).toNat + (feedbacksOn inputs c t).length =
        (deliveredTo inputs c t).length ∧ ((runAt inputs t).clusterOccupQ c).toNat ≤ p.maxOcc) ∧
      Reserved (runAt inputs t) := by
  induction t with
  | zero =>
    have hZero c : ((runAt inputs 0).clusterOccupQ c).toNat = 0 :=
      (BitVec.toNat_ofNat 0 p.occupWidth).trans (Nat.zero_mod _)
    refine ⟨fun c => ⟨hZero c, hZero c ▸ Nat.zero_le _⟩, fun hWait => by cases hWait⟩
  | succ t ih =>
    obtain ⟨hCount, hReserved⟩ := ih
    have hRoom c := delivers_room (runAt inputs t) (inputs t) hReserved (hCount c).2
    have hTasks c : (deliveredTo inputs c (t + 1)).length =
        (deliveredTo inputs c t).length + (delivers (runAt inputs t) (inputs t) c).toNat := by
      rw [deliveredTo_eq, deliveredTo_eq, window_succ _ (Nat.zero_le t), List.length_append]
      cases delivers (runAt inputs t) (inputs t) c <;> rfl
    have hBack c : (feedbacksOn inputs c (t + 1)).length =
        (feedbacksOn inputs c t).length + (takesFeedback (runAt inputs t) (inputs t) c).toNat := by
      rw [feedbacksOn, window_succ _ (Nat.zero_le t), List.length_append, length_feedbacks]
      rfl
    have hStep c : ((runAt inputs (t + 1)).clusterOccupQ c).toNat +
        (takesFeedback (runAt inputs t) (inputs t) c).toNat =
          ((runAt inputs t).clusterOccupQ c).toNat + (delivers (runAt inputs t) (inputs t) c).toNat := by
      refine occup_step (runAt inputs t) (inputs t) c ?_ (hRoom c)
      have hNext := hFeedback c (t + 1)
      have hNow := (hCount c).1
      rw [hTasks, hBack] at hNext
      omega
    refine ⟨fun c => ?_, reserved_step _ _ hReserved fun c => Nat.le_of_add_right_le (hStep c).le⟩
    have hNow := (hCount c).1
    have hNext := hStep c
    have hLe := hRoom c
    rw [hTasks, hBack]
    omega

variable (inputs)

/-- Every cluster takes tasks from its register again and again. -/
def Fair : Prop := ∀ c t, ∃ u, t ≤ u ∧ (inputs u).clusterTaskReady c = true

variable {inputs}

theorem waiting_kept {t u : Nat} (h : t ≤ u) (hState : (runAt inputs t).stateQ = .waitTransfer)
    (hNone : ∀ v, t ≤ v → deliveries (runAt inputs v) (inputs v) = []) :
    (runAt inputs u).stateQ = .waitTransfer ∧ (runAt inputs u).clusterIdQ = (runAt inputs t).clusterIdQ := by
  induction u, h using Nat.le_induction with
  | base => exact ⟨hState, rfl⟩
  | succ u htu ih =>
    obtain ⟨hWait, hTarget⟩ := ih
    have hIdD : clusterIdD (runAt inputs u) (inputs u) = (runAt inputs u).clusterIdQ := by
      rw [clusterIdD, hWait]
      rfl
    have hNot := hNone u htu
    rw [deliveries_eq, servingCluster, hWait, hIdD] at hNot
    have hReady : clusterReady (runAt inputs u) (runAt inputs u).clusterIdQ = false := by
      cases hReady : clusterReady (runAt inputs u) (runAt inputs u).clusterIdQ with
      | false => rfl
      | true => rw [hReady] at hNot; cases hNot
    constructor
    · change stateD (runAt inputs u) (inputs u) = _
      rw [stateD, hWait]
      exact if_neg (Bool.eq_false_iff.mp hReady)
    · exact hIdD.trans hTarget

theorem exists_delivery (hFair : Fair inputs) {t : Nat} (hState : (runAt inputs t).stateQ = .waitTransfer) :
    ∃ u, t ≤ u ∧ deliveries (runAt inputs u) (inputs u) ≠ [] := by
  by_contra hNever
  push Not at hNever
  obtain ⟨u, hu, hTakes⟩ := hFair (runAt inputs t).clusterIdQ t
  obtain ⟨hWait, hTarget⟩ := waiting_kept (Nat.le_succ_of_le hu) hState hNever
  have hReady : clusterReady (runAt inputs (u + 1)) (runAt inputs (u + 1)).clusterIdQ = true := by
    rw [hTarget]
    change (SpillRegister.step _ _ _ ((inputs u).clusterTaskReady (runAt inputs t).clusterIdQ)).readyO = true
    rw [hTakes]
    exact SpillRegister.readyO_step_of_readyI _ _ _
  have hNone := hNever (u + 1) (Nat.le_succ_of_le hu)
  have hIdD : clusterIdD (runAt inputs (u + 1)) (inputs (u + 1)) = (runAt inputs (u + 1)).clusterIdQ := by
    rw [clusterIdD, hWait]
    rfl
  rw [deliveries_eq, servingCluster, hWait, hIdD, hReady] at hNone
  cases hNone

theorem accepted_delivered (hFair : Fair inputs) {t n : Nat} (hn : n < (acceptedOn inputs t).length) :
    ∃ u, n < (deliveredOn inputs u).length := by
  refine exists_left (fun u => (waiting (runAt inputs u)).length) (fun u => ?_) (fun u hWaiting => ?_) hn
  · have hLaw := congrArg List.length (delivered_append_waiting inputs u)
    rwa [List.length_append, List.length_map] at hLaw
  · refine exists_delivery hFair ?_
    by_contra hState
    rw [waiting, beq_false_of_ne hState] at hWaiting
    cases hWaiting

variable (inputs)

structure Contract : Prop where
  /-- Over all clusters, each accepted task is delivered once and in order, or it is the waiting one. -/
  order : ∀ t, (deliveredOn inputs t).map (·.2) ++ waiting (runAt inputs t) = acceptedOn inputs t
  /-- What the cluster gets from its register are the tasks delivered to it. -/
  received : ∀ c t, receivedOn inputs c t ++ ((runAt inputs t).taskSpill c).contents = deliveredTo inputs c t
  occup : ∀ c t, ((runAt inputs t).clusterOccupQ c).toNat + (feedbacksOn inputs c t).length =
    (deliveredTo inputs c t).length
  bound : ∀ c t, ((runAt inputs t).clusterOccupQ c).toNat ≤ p.numHersPerCluster
  /-- A valid task is accepted and delivered in the same cycle if a cluster is available. -/
  atOnce : ∀ t, (runAt inputs t).stateQ = .servePacket → (inputs t).taskValid = true →
    Available (runAt inputs t) →
    taskReady (runAt inputs t) (inputs t) = true ∧
      ∃ c, deliveries (runAt inputs t) (inputs t) = [(c, (inputs t).taskDescr)] ∧
        (clusterReady (runAt inputs t) (homeClusterId (inputs t)) = true →
          ((runAt inputs t).clusterOccupQ (homeClusterId (inputs t))).toNat < p.numHersPerCluster →
            c = homeClusterId (inputs t))
  served : Fair inputs → ∀ t n, n < (acceptedOn inputs t).length → ∃ u, n < (deliveredOn inputs u).length

variable {inputs}

theorem scheduler_contract
    (hFeedback : ∀ c t, (feedbacksOn inputs c t).length ≤ (deliveredTo inputs c t).length) : Contract inputs where
  order := delivered_append_waiting inputs
  received := received_append_contents inputs
  occup c t := ((run_occup hFeedback t).1 c).1
  bound c t := ((run_occup hFeedback t).1 c).2
  atOnce t hState hValid hAvail := by
    obtain ⟨hReady, hDelivered⟩ := delivered_at_once (runAt inputs t) (inputs t) hState hValid hAvail
    exact ⟨hReady, _, hDelivered, selClusterId_home (runAt inputs t) (inputs t)⟩
  served hFair _ _ := accepted_delivered hFair

def oneHer : Params := ⟨1, 1, Nat.one_pos, Nat.le_succ 1⟩

/-- Three tasks for cluster 0, which has room for one; it hands back a feedback in cycle 3. -/
def sameHome (t : Nat) : Input oneHer where
  taskValid := t < 2 || t == 5
  taskDescr := zeroTask
  clusterTaskReady _ := true
  clusterFeedbackValid c := c.val == 0 && t == 3
  clusterFeedback _ := ⟨0, 0, 0, true⟩
  pktgenFeedbackReady := true
  feedbackIdx := ⟨0, oneHer.numClusters_pos⟩

theorem sameHome_handsBack (c : ClusterId oneHer) (t : Nat) :
    (handedBackOn sameHome c t).length ≤ (receivedOn sameHome c t).length := by
  have hStart : ∀ c : ClusterId oneHer, ∀ t < 5,
      (handedBackOn sameHome c t).length ≤ (receivedOn sameHome c t).length := by decide +kernel
  rcases Nat.lt_or_ge t 5 with ht | ht
  · exact hStart c t ht
  have hNone : window (fun u => handsBack (runAt sameHome u) (sameHome u) c) 4 t = [] := by
    refine window_eq_nil fun u hu _ => ?_
    have hValid : (sameHome u).clusterFeedbackValid c = (c.val == 0 && u == 3) := rfl
    rw [handsBack, hValid, beq_false_of_ne (by omega : u ≠ 3), Bool.and_false]
    rfl
  have hLe : (4 : Nat) ≤ t := Nat.le_of_succ_le ht
  have hSame : handedBackOn sameHome c t = handedBackOn sameHome c 4 := by
    rw [handedBackOn, ← window_append _ (Nat.zero_le 4) hLe, hNone, List.append_nil]
    rfl
  have hMono : receivedOn sameHome c 4 <+: receivedOn sameHome c t := window_mono _ hLe
  rw [hSame]
  exact (hStart c 4 (Nat.lt_succ_self 4)).trans hMono.length_le

theorem scheduler_contract_sameHome :
    (deliveredOn sameHome 6).map (·.1.val) = [0, 1, 0] ∧ Contract sameHome :=
  ⟨by decide +kernel, scheduler_contract fun c t => feedbacks_le_delivered sameHome (sameHome_handsBack c t)⟩

end Runs

end FPsPIN.Scheduler
