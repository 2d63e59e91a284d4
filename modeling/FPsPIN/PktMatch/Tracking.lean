import Mathlib.Data.List.GetD
import FPsPIN.PktMatch.Model

/-!
# What the match engine holds of the current frame

A track follows the engine: the frames that have left, the beats taken of the
current frame and how many of them have been handed over. In every phase the
registers are determined by the track as far as the rest of the frame needs
them.
-/

namespace FPsPIN.PktMatch

open LatencyFifo

variable {p : Params}

def Unfinished (beats : List (Beat p)) : Prop := ∀ b ∈ beats, b.tlast = false

/-- Exactly the last beat carries tlast. -/
def IsFrame (beats : List (Beat p)) : Prop :=
  ∃ body last, beats = body ++ [last] ∧ Unfinished body ∧ last.tlast = true

def loadData (beats : List (Beat p)) (k : Nat) : BitVec p.dataWidth := (beats.map Beat.tdata).getD k 0

def loadSide (beats : List (Beat p)) (k : Nat) : Side p := (beats.map Beat.toSide).getD k zeroSide

/-- The verdict on a frame depends on its first MATCHER_BEATS beats. -/
def judge (rules : RuleStore) (beats : List (Beat p)) : Verdict p :=
  verdict p rules (loadData (beats.take p.matcherBeats))

/-- A frame and the rules it was matched against. -/
structure Routed (p : Params) where
  rules : RuleStore
  beats : List (Beat p)

/-- True for a frame to PsPIN. -/
def Routed.port (f : Routed p) : Bool := (judge f.rules f.beats).matched

def Routed.tag (f : Routed p) : BitVec p.tagWidth := (judge f.rules f.beats).tag

def Routed.size (f : Routed p) : Nat := f.beats.length * p.beatSize

structure Track (p : Params) where
  done : List (Routed p)
  cur : List (Beat p)
  out : Nat

section Step

variable (g : Track p) (s : State p) (i : Input p)

def Track.taken : List (Beat p) := g.cur ++ (consumed s i).toList

def frameLeaves : Bool := (sent s i).any (fun x => x.2.tlast)

def Track.step : Track p :=
  if frameLeaves s i then ⟨g.done ++ [⟨s.store, g.taken s i⟩], [], 0⟩
  else ⟨g.done, g.taken s i, g.out + (sent s i).toList.length⟩

end Step

section Phases

variable (s : State p)

/-- The matcher holds the beats so far of a frame that goes on, none between frames. -/
structure Filling (cur : List (Beat p)) : Prop where
  unfinished : Unfinished cur
  matcher : s.matcher = loadData cur
  saved : s.saved = loadSide cur
  matcherIdx : s.matcherIdx.toNat = cur.length
  room : cur.length < p.matcherBeats
  passthroughQ : s.passthroughQ = false
  sendTvalid : s.sendTvalid = false
  sendTlast : s.sendTlast = false

/-- The matcher holds a whole frame, or its first MATCHER_BEATS beats. -/
structure Held (body : List (Beat p)) (last : Beat p) : Prop where
  unfinished : Unfinished body
  matcher : s.matcher = loadData (body ++ [last])
  saved : s.saved = loadSide (body ++ [last])
  lastIdx : s.lastIdx.toNat = body.length
  room : body.length < p.matcherBeats
  passthroughQ : s.passthroughQ = !last.tlast
  full : last.tlast = false → body.length + 1 = p.matcherBeats
  bufferedTready : s.bufferedTready = false
  packetMetaValid : s.packetMetaValid = false

/-- The verdict is registered and the size counts the beats handed over to PsPIN. -/
structure Judged (cur : List (Beat p)) (out : Nat) : Prop where
  verdictQ : verdictQ s = judge s.store cur
  size : s.matchedQ = true → s.packetMetaSize.toNat = out * p.beatSize

/-- The registers in each phase. -/
inductive Tracks : List (Routed p) → List (Beat p) → Nat → Prop
  | idle {done} (hPhase : s.stateQ = .idle) (hFilling : Filling s []) (hReady : s.bufferedTready = true)
      (hMeta : s.packetMetaValid = false) : Tracks done [] 0
  | storing {done cur} (hPhase : s.stateQ = .recv ∨ s.stateQ = .recvWait) (hFilling : Filling s cur)
      (hReady : s.bufferedTready = true) (hMeta : s.packetMetaValid = false) (hSize : s.packetMetaSize = 0) :
      Tracks done cur 0
  | stored {done body last} (hPhase : s.stateQ = .recvLast) (hHeld : Held s body last) (hIdx : s.matcherIdx = 0)
      (hValid : s.sendTvalid = false) (hLast : s.sendTlast = false) (hSize : s.packetMetaSize = 0) :
      Tracks done (body ++ [last]) 0
  | matching {done body last} (hPhase : s.stateQ = .matching) (hHeld : Held s body last) (hIdx : s.matcherIdx = 0)
      (hValid : s.sendTvalid = false) (hLast : s.sendTlast = false) (hJudged : Judged s (body ++ [last]) 0) :
      Tracks done (body ++ [last]) 0
  | sending {done body last out} (hPhase : s.stateQ = .send ∨ s.stateQ = .sendWait) (hHeld : Held s body last)
      (hIdx : s.matcherIdx.toNat = out + 1) (hOut : out < body.length) (hValid : s.sendTvalid = true)
      (hLast : s.sendTlast = false) (hBeat : body[out]? = some (sendBeat s))
      (hJudged : Judged s (body ++ [last]) out) : Tracks done (body ++ [last]) out
  | sendingLast {done body last} (hPhase : s.stateQ = .sendLast) (hHeld : Held s body last)
      (hIdx : s.matcherIdx.toNat = body.length) (hValid : s.sendTvalid = true) (hBeat : sendBeat s = last)
      (hJudged : Judged s (body ++ [last]) body.length) : Tracks done (body ++ [last]) body.length
  | passing {done cur} (hPhase : s.stateQ = .passthrough) (hOpen : Unfinished cur)
      (hLong : p.matcherBeats ≤ cur.length) (hPass : s.passthroughQ = true) (hReady : s.bufferedTready = false)
      (hMeta : s.packetMetaValid = false) (hJudged : Judged s cur cur.length) : Tracks done cur cur.length
  | metadata {done f} (hPhase : s.stateQ = .metadata) (hFilling : Filling s []) (hReady : s.bufferedTready = false)
      (hMeta : s.packetMetaValid = true) (hPort : f.port = true) (hTag : packetMetaTag s = f.tag)
      (hSize : s.packetMetaSize.toNat = f.size) : Tracks (done ++ [f]) [] 0

end Phases

/-- A cycle in which the engine keeps to the frame: a frame of one beat does not meet a matcher of one beat,
the matcher index does not run out before the matcher, and the size of a frame to PsPIN fits 32 bits. -/
structure Sound (s : State p) (i : Input p) : Prop where
  oneBeat : s.stateQ = .idle → ∀ b, received s i = some b → b.tlast = true → p.matcherBeats ≠ 1
  index : ∀ b, received s i = some b → b.tlast = false → s.matcherIdx.toNat + 1 = 2 ^ p.matcherIdxWidth →
    s.matcherIdx.toNat + 1 = p.matcherBeats
  size : s.matchedQ = true → (sent s i).isSome = true → s.packetMetaSize.toNat + p.beatSize < 2 ^ 32

/-- What a cycle hands over is the next beat of the current frame, and the last one ends it. -/
def HandsOver (s : State p) (i : Input p) (g : Track p) : Prop :=
  ∀ x, sent s i = some x → (g.taken s i)[g.out]? = some x.2 ∧ verdictQ s = judge s.store (g.taken s i) ∧
    (x.2.tlast = true → IsFrame (g.taken s i) ∧ g.out + 1 = (g.taken s i).length)

section Signals

variable {s : State p} {i : Input p}

theorem consumed_of_not_pass (h : doPass s = false) : consumed s i = received s i := by
  rw [consumed, sendCombTready, h, if_neg Bool.false_ne_true, received]

theorem sent_of_not_valid (hPass : doPass s = false) (hValid : s.sendTvalid = false) : sent s i = none := by
  rw [sent, sendComb, hPass, hValid]
  cases sendTready s i <;> rfl

theorem sent_of_valid (hPass : doPass s = false) (hValid : s.sendTvalid = true) :
    sent s i = if sendTready s i then some (s.matchedQ, sendBeat s) else none := by
  rw [sent, sendComb, hPass, hValid]
  rfl

theorem received_of_not_ready (h : s.bufferedTready = false) : received s i = none := by
  rw [received, h, if_neg Bool.false_ne_true]

theorem update_getD {α β : Type*} (f : α → β) (zero : β) (l : List α) (x : α) :
    Function.update (fun k => (l.map f).getD k zero) l.length (f x) = fun k => ((l ++ [x]).map f).getD k zero := by
  funext k
  rw [Function.update_apply, List.map_append]
  split_ifs with hk
  · subst hk
    rw [List.getD_append_right _ _ _ _ (by simp)]
    simp
  · rcases Nat.lt_or_gt_of_ne hk with hLt | hGt
    · rw [List.getD_append _ _ _ _ (by simpa using hLt)]
    · rw [List.getD_eq_default _ _ (by simpa using hGt.le),
        List.getD_eq_default _ _ (by simpa using Nat.succ_le_of_lt hGt)]

theorem loadData_append (beats : List (Beat p)) (b : Beat p) :
    Function.update (loadData beats) beats.length b.tdata = loadData (beats ++ [b]) :=
  update_getD Beat.tdata 0 beats b

theorem loadSide_append (beats : List (Beat p)) (b : Beat p) :
    Function.update (loadSide beats) beats.length b.toSide = loadSide (beats ++ [b]) :=
  update_getD Beat.toSide zeroSide beats b

end Signals

end FPsPIN.PktMatch
