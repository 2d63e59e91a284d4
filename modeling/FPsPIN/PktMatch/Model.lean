import Mathlib.Algebra.Group.Nat.Defs
import Mathlib.Data.Nat.Log
import Mathlib.Logic.Function.Basic
import FPsPIN.Lib.Run
import FPsPIN.Lib.LatencyFifo

/-!
# The pspin_pkt_match block

Up to MATCHER_BEATS beats of a frame are stored and matched against the
rulesets, then replayed to the NIC or to PsPIN; further beats are passed
through. Outputs are registered from the next state. The matcher register is
indexed by beats here, and a 32 bit word of it is read bit by bit; bits beyond
its width read as zero. The input axis_fifo is a queue with an output latency;
where BUFFER_FIFO_DEPTH is zero there is none and the input goes to the engine.
-/

namespace FPsPIN.PktMatch

open LatencyFifo

structure Params where
  /-- Parameter UMATCH_MATCHER_LEN. -/
  matcherLen : Nat
  dataWidth : Nat
  keepWidth : Nat
  idWidth : Nat
  destWidth : Nat
  userWidth : Nat
  tagWidth : Nat
  msgIdWidth : Nat
  /-- BUFFER_FIFO_DEPTH in beats. -/
  fifoDepth : Nat
  latency : Nat
  dataWidth_pos : 0 < dataWidth
  /-- The checks of the initial block. -/
  matcherLen_ge : 48 ≤ matcherLen
  tagWidth_ge : msgIdWidth + 1 + 2 ≤ tagWidth

namespace Params

variable (p : Params)

def matcherBeats : Nat := (p.matcherLen * 8 + p.dataWidth - 1) / p.dataWidth

def matcherWidth : Nat := p.matcherBeats * p.dataWidth

def matcherIdxWidth : Nat := Nat.clog 2 (p.matcherWidth / 32)

/-- Bytes that packet_meta_size counts for a beat. -/
def beatSize : Nat := p.dataWidth / 8

theorem matcherBeats_pos : 0 < p.matcherBeats := by
  refine Nat.div_pos ?_ p.dataWidth_pos
  have hLen := p.matcherLen_ge
  omega

end Params

/-- Rulesets, UMATCH_RULESETS many. -/
abbrev RulesetId := Fin 4

/-- Rules of a ruleset, UMATCH_ENTRIES many. -/
abbrev EntryId := Fin 4

/-- The ruleset of highest priority. -/
abbrev firstRuleset : RulesetId := 0

/-- The rules that decide a match; the last one is for the end of a message. -/
def matchEntries : List EntryId := (List.finRange 4).dropLast

abbrev eomEntry : EntryId := 3

/-- What accompanies the data of a beat, apart from tlast. -/
structure Side (p : Params) where
  tkeep : BitVec p.keepWidth
  tid : BitVec p.idWidth
  tdest : BitVec p.destWidth
  tuser : BitVec p.userWidth
deriving DecidableEq

structure Beat (p : Params) extends Side p where
  tdata : BitVec p.dataWidth
  tlast : Bool
deriving DecidableEq

structure Rule where
  idx : BitVec 32
  mask : BitVec 32
  start : BitVec 32
  stop : BitVec 32

/-- The rule that never matches, stored while the configuration is not valid. -/
def noRule : Rule := ⟨0, 0, 1, 0⟩

structure RuleStore where
  /-- Low for MATCH_AND, high for MATCH_OR. -/
  mode : RulesetId → Bool
  rule : RulesetId → EntryId → Rule

structure MatchConf where
  valid : Bool
  rules : RuleStore

def MatchConf.stored (conf : MatchConf) : RuleStore :=
  if conf.valid then conf.rules else ⟨fun _ => false, fun _ _ => noRule⟩

inductive Phase where
  | idle
  | recv
  | recvWait
  | recvLast
  | matching
  | send
  | sendWait
  | sendLast
  | passthrough
  | metadata
deriving DecidableEq

structure State (p : Params) where
  stateQ : Phase
  passthroughQ : Bool
  matcher : Nat → BitVec p.dataWidth
  matcherIdx : BitVec p.matcherIdxWidth
  lastIdx : BitVec p.matcherIdxWidth
  /-- Arrays saved_tkeep, saved_tuser, saved_tid and saved_tdest. -/
  saved : Nat → Side p
  store : RuleStore
  matchedQ : Bool
  matchedRulesetIdQ : RulesetId
  matchedRulesetEomQ : Bool
  slmpMsgIdQ : BitVec p.msgIdWidth
  sendTdata : BitVec p.dataWidth
  sendSide : Side p
  sendTvalid : Bool
  sendTlast : Bool
  bufferedTready : Bool
  packetMetaSize : BitVec 32
  packetMetaValid : Bool
  fifo : Queue (Beat p)

structure Input (p : Params) where
  rx : Option (Beat p)
  nicReady : Bool
  pspinReady : Bool
  conf : MatchConf
  metaReady : Bool

variable {p : Params}

def zeroSide : Side p := ⟨0, 0, 0, 0⟩

/-- The registers when reset is released, without beats in reset. The rules follow the configuration also then. -/
def init (p : Params) (conf : MatchConf) : State p where
  stateQ := .idle
  passthroughQ := false
  matcher _ := 0
  matcherIdx := 0
  lastIdx := 0
  saved _ := zeroSide
  store := conf.stored
  matchedQ := false
  matchedRulesetIdQ := 0
  matchedRulesetEomQ := false
  slmpMsgIdQ := 0
  sendTdata := 0
  sendSide := zeroSide
  sendTvalid := false
  sendTlast := false
  bufferedTready := true
  packetMetaSize := 0
  packetMetaValid := false
  fifo := []

section Matching

variable (p) (store : RuleStore) (matcher : Nat → BitVec p.dataWidth)

def matcherBit (k : Nat) : Bool :=
  decide (k < p.matcherWidth) && (matcher (k / p.dataWidth)).getLsbD (k % p.dataWidth)

/-- Word k of the matcher register. -/
def matcherWord (k : Nat) : BitVec 32 :=
  BitVec.ofBoolListLE ((List.range 32).map (fun b => matcherBit p matcher (32 * k + b)))

def muData (j : RulesetId) (k : EntryId) : BitVec 32 :=
  matcherWord p matcher ((store.rule j k).idx.toNat % 2 ^ p.matcherIdxWidth) &&& (store.rule j k).mask

def muMatched (j : RulesetId) (k : EntryId) : Bool :=
  decide ((store.rule j k).start ≤ muData p store matcher j k) &&
    decide (muData p store matcher j k ≤ (store.rule j k).stop)

def rulesetMatched (j : RulesetId) : Bool :=
  if store.mode j then
    muMatched p store matcher j 0 || muMatched p store matcher j 1 || muMatched p store matcher j 2
  else muMatched p store matcher j 0 && muMatched p store matcher j 1 && muMatched p store matcher j 2

theorem rulesetMatched_eq (j : RulesetId) :
    rulesetMatched p store matcher j =
      if store.mode j then matchEntries.any (muMatched p store matcher j)
      else matchEntries.all (muMatched p store matcher j) := by
  have hEntries : matchEntries = [0, 1, 2] := rfl
  simp only [rulesetMatched, hEntries, List.any_cons, List.any_nil, List.all_cons, List.all_nil,
    Bool.or_false, Bool.and_true, Bool.or_assoc, Bool.and_assoc]

def rulesetEom (j : RulesetId) : Bool := muMatched p store matcher j eomEntry

/-- The matching ruleset of highest priority. -/
def matchedRuleset : Option RulesetId := (List.finRange 4).find? (rulesetMatched p store matcher)

def slmpMsgId : BitVec p.msgIdWidth := (matcherWord p matcher 11).setWidth p.msgIdWidth

/-- The registers that keep the outcome of a match. -/
structure Verdict where
  matched : Bool
  rulesetId : RulesetId
  eom : Bool
  msgId : BitVec p.msgIdWidth

/-- The outcome of a match: signals matched_d, matched_ruleset_id_d, matched_ruleset_eom_d and slmp_msg_id. -/
def verdict : Verdict p where
  matched := (matchedRuleset p store matcher).isSome
  rulesetId := (matchedRuleset p store matcher).getD 0
  eom := (matchedRuleset p store matcher).any (rulesetEom p store matcher)
  msgId := slmpMsgId p matcher

variable {p}

/-- Signal packet_meta_tag. -/
def Verdict.tag (v : Verdict p) : BitVec p.tagWidth :=
  ((v.msgId ++ BitVec.ofBool v.eom) ++ BitVec.ofNat 2 v.rulesetId).setWidth p.tagWidth

/-- A tag is read as three digits: message id, end-of-message bit and ruleset. -/
theorem Verdict.toNat_tag (v : Verdict p) :
    v.tag.toNat = (v.msgId.toNat * 2 + v.eom.toNat) * 4 + v.rulesetId.val := by
  have hEom : v.eom.toNat < 2 ^ 1 := v.eom.toNat_lt
  have hRuleset : v.rulesetId.val < 2 ^ 2 := v.rulesetId.isLt
  have hMsgId := v.msgId.isLt
  have hValue : ((v.msgId ++ BitVec.ofBool v.eom) ++ BitVec.ofNat 2 v.rulesetId.val).toNat =
      (v.msgId.toNat * 2 + v.eom.toNat) * 4 + v.rulesetId.val := by
    rw [BitVec.toNat_append, BitVec.toNat_append, BitVec.toNat_ofNat, BitVec.toNat_ofBool, Nat.mod_eq_of_lt hRuleset,
      ← Nat.shiftLeft_add_eq_or_of_lt hRuleset, ← Nat.shiftLeft_add_eq_or_of_lt hEom,
      Nat.shiftLeft_eq, Nat.shiftLeft_eq]
  have hPow : 2 ^ (p.msgIdWidth + 1 + 2) ≤ 2 ^ p.tagWidth := Nat.pow_le_pow_right (by decide) p.tagWidth_ge
  rw [Verdict.tag, BitVec.toNat_setWidth, hValue, Nat.mod_eq_of_lt]
  omega

end Matching

section Combinational

variable (s : State p) (i : Input p)

/-- Signals buffered, if valid: of the FIFO, or of the input where there is none. -/
def buffered : Option (Beat p) := if p.fifoDepth = 0 then i.rx else output p.latency s.fifo

def sendTready : Bool := if s.matchedQ then i.pspinReady else i.nicReady

def doPass : Bool := s.stateQ == .passthrough

def sendCombTready : Bool := if doPass s then sendTready s i else s.bufferedTready

/-- Signal s_axis_nic_rx_tready. -/
def rxTready : Bool := if p.fifoDepth = 0 then sendCombTready s i else ready p.fifoDepth s.fifo

/-- The beat at the output register. -/
def sendBeat : Beat p := ⟨s.sendSide, s.sendTdata, s.sendTlast⟩

/-- Signals send_comb, if valid. -/
def sendComb : Option (Beat p) :=
  if doPass s then buffered s i else if s.sendTvalid then some (sendBeat s) else none

/-- The beat received in the storing phases. -/
def received : Option (Beat p) := if s.bufferedTready then buffered s i else none

/-- The beat taken from the input FIFO or from the input. -/
def consumed : Option (Beat p) := if sendCombTready s i then buffered s i else none

/-- The beat handed over to the NIC or to PsPIN, with the port: true for PsPIN. -/
def sent : Option (Bool × Beat p) := if sendTready s i then (sendComb s i).map (Prod.mk s.matchedQ) else none

def verdictQ : Verdict p := ⟨s.matchedQ, s.matchedRulesetIdQ, s.matchedRulesetEomQ, s.slmpMsgIdQ⟩

def packetMetaTag : BitVec p.tagWidth := (verdictQ s).tag

def metaSent : Option (BitVec p.tagWidth × BitVec 32) :=
  if i.metaReady && s.packetMetaValid then some (packetMetaTag s, s.packetMetaSize) else none

/-- The matcher holds its last beat. -/
def atLastBeat : Bool := s.matcherIdx.toNat == p.matcherBeats - 1

def afterFrame : Phase := if s.matchedQ then .metadata else .idle

def stateD : Phase :=
  match s.stateQ with
  | .idle =>
    match received s i with
    | none => .idle
    | some beat => if atLastBeat s then .recvLast else if beat.tlast then .recvLast else .recv
  | .recv | .recvWait =>
    match received s i with
    | none => .recvWait
    | some beat => if beat.tlast then .recvLast else if atLastBeat s then .recvLast else .recv
  | .recvLast => .matching
  | .matching => if s.lastIdx == s.matcherIdx then .sendLast else .send
  | .send | .sendWait =>
    if s.sendTvalid && sendTready s i then (if s.lastIdx == s.matcherIdx then .sendLast else .send)
    else .sendWait
  | .sendLast =>
    if s.sendTvalid && sendTready s i then (if s.passthroughQ then .passthrough else afterFrame s)
    else .sendLast
  | .passthrough =>
    match sent s i with
    | none => .passthrough
    | some x => if x.2.tlast then afterFrame s else .passthrough
  | .metadata => if i.metaReady && s.packetMetaValid then .idle else .metadata

def passthroughD : Bool :=
  match s.stateQ with
  | .idle =>
    match received s i with
    | none => s.passthroughQ
    | some _ => atLastBeat s || s.passthroughQ
  | .recv | .recvWait =>
    match received s i with
    | none => s.passthroughQ
    | some beat => (!beat.tlast && atLastBeat s) || s.passthroughQ
  | .passthrough =>
    match sent s i with
    | none => s.passthroughQ
    | some x => !x.2.tlast && s.passthroughQ
  | _ => s.passthroughQ

def storeBeat (beat : Beat p) : State p :=
  { s with
    matcher := Function.update s.matcher s.matcherIdx.toNat beat.tdata
    saved := Function.update s.saved s.matcherIdx.toNat beat.toSide
    slmpMsgIdQ := slmpMsgId p s.matcher }

/-- The stored beat at the matcher index moves to the output register. -/
def loadSend : State p :=
  { s with
    sendTdata := s.matcher s.matcherIdx.toNat
    sendSide := s.saved s.matcherIdx.toNat
    sendTvalid := true }

/-- The registers written by the state-machine output block, which looks at the next state. -/
def outputs : State p :=
  match stateD s i with
  | .metadata | .idle =>
    { s with
      matcher := fun _ => 0
      matcherIdx := 0
      lastIdx := 0
      matchedQ := false
      sendTdata := 0
      sendTvalid := false
      sendTlast := false
      sendSide := { s.sendSide with tkeep := 0 }
      bufferedTready := stateD s i == .idle
      saved := fun _ => zeroSide
      store := i.conf.stored }
  | .recv =>
    match received s i with
    | none => s
    | some beat => { storeBeat s beat with matcherIdx := s.matcherIdx + 1 }
  | .recvLast =>
    match received s i with
    | none => s
    | some beat => { storeBeat s beat with matcherIdx := 0, lastIdx := s.matcherIdx, bufferedTready := false }
  | .matching =>
    { s with
      matchedRulesetIdQ := (verdict p s.store s.matcher).rulesetId
      matchedRulesetEomQ := (verdict p s.store s.matcher).eom
      matchedQ := (verdict p s.store s.matcher).matched
      slmpMsgIdQ := (verdict p s.store s.matcher).msgId }
  | .send => { loadSend s with matcherIdx := s.matcherIdx + 1 }
  | .sendLast => { loadSend s with sendTlast := !passthroughD s i || s.sendTlast }
  | .recvWait | .sendWait | .passthrough => s

def packetMetaSizeD : BitVec 32 :=
  if s.stateQ == .idle then 0
  else if (sent s i).isSome then s.packetMetaSize + BitVec.ofNat 32 p.beatSize
  else s.packetMetaSize

def packetMetaValidD : Bool :=
  if s.stateQ == .idle then false
  else if i.metaReady && s.packetMetaValid then false
  else if (sent s i).any (fun x => x.2.tlast) then s.matchedQ
  else s.packetMetaValid

def step : State p :=
  { outputs s i with
    stateQ := stateD s i
    passthroughQ := passthroughD s i
    packetMetaSize := packetMetaSizeD s i
    packetMetaValid := packetMetaValidD s i
    fifo := LatencyFifo.step p.fifoDepth p.latency s.fifo i.rx (sendCombTready s i) }

end Combinational

end FPsPIN.PktMatch
