import FPsPIN.Config
import FPsPIN.CommonCells
import FPsPIN.Lib.Counter
import FPsPIN.Lib.Run
import Mathlib.Algebra.Group.Nat.Defs
import Mathlib.Data.List.FinRange
import Mathlib.Data.Nat.Log

/-!
# The scheduler block

Tasks of the MPQ engine are spread over the clusters: a task goes to its home
cluster, or to the least loaded one that is ready. The scheduler counts the
tasks of each cluster that have no feedback yet. All four inputs of argmin4 are
there with two clusters as well: the missing clusters are never enabled. The
arbiter among the feedbacks is an input.
-/

namespace FPsPIN.Scheduler

open CommonCells Config

/-- Two or four clusters. -/
structure Params where
  numHersPerCluster : Nat
  clusterBits : Nat
  clusterBits_pos : 0 < clusterBits
  clusterBits_le : clusterBits ≤ 2

namespace Params

variable (p : Params)

def numClusters : Nat := 2 ^ p.clusterBits

theorem numClusters_pos : 0 < p.numClusters := Nat.two_pow_pos _

theorem numClusters_le : p.numClusters ≤ 4 := Nat.pow_le_pow_right Nat.two_pos p.clusterBits_le

/-- Width of an entry of cluster_occup_q. -/
def occupWidth : Nat := Nat.clog 2 p.numHersPerCluster + 1

/-- Constant MAX_OCC. -/
def maxOcc : Nat := p.numHersPerCluster

theorem maxOcc_lt : p.maxOcc < 2 ^ p.occupWidth := Counter.lt_two_pow_clog_succ _

theorem maxOcc_le : p.maxOcc ≤ (BitVec.allOnes p.occupWidth).toNat := by
  rw [BitVec.toNat_allOnes]
  exact Nat.le_sub_one_of_lt p.maxOcc_lt

end Params

abbrev ClusterId (p : Params) := Fin p.numClusters

section Argmin

variable {width : Nat} (valuesI : Nat → BitVec width) (enabledI : Nat → Bool)

/-- Array values of argmin4. -/
def argminValues (c : Nat) : BitVec width := if enabledI c then valuesI c else BitVec.allOnes width

def argmin4 : Nat :=
  let values := argminValues valuesI enabledI
  let minL0 := if values 0 ≤ values 1 then 0 else 1
  let minL1 := if values 2 ≤ values 3 then 2 else 3
  if values minL0 ≤ values minL1 then minL0 else minL1

theorem argmin4_le {c : Nat} (hc : c < 4) :
    argminValues valuesI enabledI (argmin4 valuesI enabledI) ≤ argminValues valuesI enabledI c := by
  simp only [argmin4, BitVec.le_def]
  have hCases : c = 0 ∨ c = 1 ∨ c = 2 ∨ c = 3 := by omega
  rcases hCases with rfl | rfl | rfl | rfl <;> split_ifs <;> omega

theorem argmin4_enabled {c : Nat} (hc : c < 4) (hEnabled : enabledI c = true)
    (hValue : valuesI c < BitVec.allOnes width) :
    enabledI (argmin4 valuesI enabledI) = true ∧ valuesI (argmin4 valuesI enabledI) ≤ valuesI c := by
  have hLe := argmin4_le valuesI enabledI hc
  rw [argminValues, argminValues, if_pos hEnabled] at hLe
  cases hChosen : enabledI (argmin4 valuesI enabledI) with
  | true =>
    rw [if_pos hChosen] at hLe
    exact ⟨rfl, hLe⟩
  | false =>
    rw [hChosen, if_neg Bool.false_ne_true, BitVec.le_def] at hLe
    exact absurd hValue (Nat.not_lt_of_le hLe)

end Argmin

inductive Phase where
  | servePacket
  | waitTransfer
deriving DecidableEq

structure State (p : Params) where
  stateQ : Phase
  clusterOccupQ : ClusterId p → BitVec p.occupWidth
  clusterIdQ : ClusterId p
  taskQ : HandlerTask
  taskSpill : ClusterId p → SpillRegister HandlerTask
  feedbackSpill : ClusterId p → SpillRegister FeedbackDescr

structure Input (p : Params) where
  taskValid : Bool
  taskDescr : HandlerTask
  clusterTaskReady : ClusterId p → Bool
  clusterFeedbackValid : ClusterId p → Bool
  clusterFeedback : ClusterId p → FeedbackDescr
  pktgenFeedbackReady : Bool
  /-- Output idx_o of the feedback arbiter. -/
  feedbackIdx : ClusterId p

/-- The task register after reset. -/
def zeroTask : HandlerTask where
  msgid := 0
  handlerFun := 0
  handlerFunSize := 0
  handlerMemAddr := 0
  handlerMemSize := 0
  hostMemAddr := 0
  hostMemSize := 0
  pktAddr := 0
  pktSize := 0
  triggerFeedback := false
  scratchpadAddr _ := 0
  scratchpadSize _ := 0

variable {p : Params}

def init (p : Params) : State p where
  stateQ := .servePacket
  clusterOccupQ _ := 0
  clusterIdQ := ⟨0, p.numClusters_pos⟩
  taskQ := zeroTask
  taskSpill _ := SpillRegister.empty
  feedbackSpill _ := SpillRegister.empty

section Combinational

variable (s : State p) (i : Input p)

/-- Signal cluster_task_ready_id, the ready of the spill register. -/
def clusterReady (c : ClusterId p) : Bool := (s.taskSpill c).readyO

def homeClusterId : ClusterId p := ⟨i.taskDescr.msgid.toNat % p.numClusters, Nat.mod_lt _ p.numClusters_pos⟩

/-- Port values_i of argmin4; the occupations are extended by zeros. -/
def occupValues (c : Nat) : BitVec p.occupWidth := if h : c < p.numClusters then s.clusterOccupQ ⟨c, h⟩ else 0

/-- Port enabled_i of argmin4. -/
def readyBits (c : Nat) : Bool := if h : c < p.numClusters then clusterReady s ⟨c, h⟩ else false

/-- The output of argmin4, cut to the width of a cluster index. -/
def cOccupMin : ClusterId p :=
  ⟨argmin4 (occupValues s) (readyBits s) % p.numClusters, Nat.mod_lt _ p.numClusters_pos⟩

def noClusterAvail : Bool := decide (p.maxOcc ≤ (s.clusterOccupQ (cOccupMin s)).toNat)

def canUseHomeCluster : Bool :=
  noClusterAvail s || decide ((s.clusterOccupQ (homeClusterId i)).toNat < p.maxOcc) &&
    clusterReady s (homeClusterId i)

def selClusterId : ClusterId p := if canUseHomeCluster s i then homeClusterId i else cOccupMin s

def clusterIdD : ClusterId p := if s.stateQ == .servePacket then selClusterId s i else s.clusterIdQ

def taskReady : Bool := s.stateQ == .servePacket && i.taskValid && !noClusterAvail s

def servingCluster : Bool :=
  match s.stateQ with
  | .servePacket => i.taskValid && !noClusterAvail s
  | .waitTransfer => true

def stateD : Phase :=
  match s.stateQ with
  | .servePacket =>
    if i.taskValid && !noClusterAvail s then
      if clusterReady s (clusterIdD s i) then .servePacket else .waitTransfer
    else .servePacket
  | .waitTransfer => if clusterReady s s.clusterIdQ then .servePacket else .waitTransfer

def taskD : HandlerTask := if i.taskValid && taskReady s i then i.taskDescr else s.taskQ

/-- Signal cluster_task_descr_od, the same for every cluster. -/
def clusterTaskDescr : HandlerTask := if s.stateQ == .servePacket then i.taskDescr else s.taskQ

/-- Signal cluster_task_valid_od. -/
def clusterTaskValid (c : ClusterId p) : Bool := decide (clusterIdD s i = c) && servingCluster s i

/-- The cluster's register takes a task. -/
def delivers (c : ClusterId p) : Bool := clusterTaskValid s i c && clusterReady s c

/-- Output gnt_o of the feedback arbiter. -/
def clusterFeedbackGrant (c : ClusterId p) : Bool := i.pktgenFeedbackReady && decide (c = i.feedbackIdx)

/-- A feedback of the cluster is taken. -/
def takesFeedback (c : ClusterId p) : Bool := (s.feedbackSpill c).validO && clusterFeedbackGrant i c

def clusterOccupD (c : ClusterId p) : BitVec p.occupWidth :=
  match delivers s i c, takesFeedback s i c with
  | true, false => s.clusterOccupQ c + 1
  | false, true => s.clusterOccupQ c - 1
  | _, _ => s.clusterOccupQ c

def step : State p where
  stateQ := stateD s i
  clusterOccupQ := clusterOccupD s i
  clusterIdQ := clusterIdD s i
  taskQ := taskD s i
  taskSpill c := (s.taskSpill c).step (clusterTaskValid s i c) (clusterTaskDescr s i) (i.clusterTaskReady c)
  feedbackSpill c :=
    (s.feedbackSpill c).step (i.clusterFeedbackValid c) (i.clusterFeedback c) (clusterFeedbackGrant i c)

end Combinational

end FPsPIN.Scheduler
