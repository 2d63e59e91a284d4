import FPsPIN.HostReq.Flag
import FPsPIN.Lib.Trace

/-!
# Requests to the host

An HPU sends a request as one flag word to its page of host memory and polls
its own flag word in PsPIN memory until that carries the id of the request. The
host compares the page with the last id it took and answers with a flag word of
the same id. Nothing is acknowledged.

The flag word of the response is written by iowrite64_lo_hi as two words, and
an HPU has 32 bit loads, so that a poll is two loads and they may come in
either order. The page is written by one DMA transfer and read by one load.
The calls made so far are recorded in four lists that no step reads.
-/

namespace FPsPIN.HostReq

def lowWord (data : BitVec 64) : BitVec 32 := data.extractLsb' 0 32

def highWord (data : BitVec 64) : BitVec 32 := data.extractLsb' 32 32

theorem high_append_low (data : BitVec 64) : highWord data ++ lowWord data = data := by
  rw [highWord, lowWord, BitVec.extractLsb'_append_extractLsb'_eq_extractLsb' (by decide)]
  exact BitVec.extractLsb'_eq_self

/-- Where an HPU is in fpspin_host_req; a poll keeps the words it has loaded. -/
inductive HpuPhase
  | idle
  | writing (flagToHost : Flag)
  | polling (flagToHost : Flag) (low high : Option (BitVec 32))
deriving DecidableEq

/-- What one HPU and the host share, with the counters of both sides. -/
structure Channel where
  /-- The counter dma_idx of the HPU. -/
  dmaIdx : BitVec 8
  hpu : HpuPhase
  page : BitVec 64
  /-- The entry of dma_idx in the context of the host. -/
  hostIdx : BitVec 8
  /-- The host has taken a request and not answered it. -/
  due : Bool
  low : BitVec 32
  high : BitVec 32
  /-- The high word that the host has still to write. -/
  pending : Option (BitVec 32)
  requested : List Flag
  popped : List Flag
  pushed : List Flag
  returned : List Flag
deriving DecidableEq

def zeroChannel : Channel := ⟨0, .idle, 0, 0, false, 0, 0, none, [], [], [], []⟩

inductive Action
  | request (len : BitVec 32)
  | deliver
  | loadLow
  | loadHigh
  | compare
  | pop
  | push (flag : BitVec 64)
  | writeHigh
deriving DecidableEq

/-- Function fpspin_pop_req; none is its NULL. -/
def fpspinPopReq (c : Channel) : Option Flag :=
  let f := Flag.ofData c.page
  if f.dmaId = c.hostIdx then none else some f

/-- The word that fpspin_push_resp writes; the padding and the len are the caller's. -/
def pushResp (hostIdx : BitVec 8) (hpu : HpuId) (flag : BitVec 64) : BitVec 64 :=
  flag.extractLsb' 56 8 ++ BitVec.ofNat 16 hpu ++ (Flag.ofData flag).len ++ hostIdx

theorem ofData_pushResp (hostIdx : BitVec 8) (hpu : HpuId) (flag : BitVec 64) :
    Flag.ofData (pushResp hostIdx hpu flag) = ⟨hostIdx, (Flag.ofData flag).len, BitVec.ofNat 16 hpu⟩ :=
  Flag.ofData_append _ ⟨hostIdx, (Flag.ofData flag).len, BitVec.ofNat 16 hpu⟩

def step (h : HpuId) (c : Channel) : Action → Option Channel
  | .request len =>
    match c.hpu with
    | .idle =>
      let flag := flagToHost c.dmaIdx h len
      some { c with dmaIdx := c.dmaIdx + 1, hpu := .writing flag, requested := c.requested ++ [flag] }
    | _ => none
  | .deliver =>
    match c.hpu with
    | .writing flag => some { c with page := flag.data, hpu := .polling flag none none }
    | _ => none
  | .loadLow =>
    match c.hpu with
    | .polling flag none high => some { c with hpu := .polling flag (some c.low) high }
    | _ => none
  | .loadHigh =>
    match c.hpu with
    | .polling flag low none => some { c with hpu := .polling flag low (some c.high) }
    | _ => none
  | .compare =>
    match c.hpu with
    | .polling flag (some low) (some high) =>
      let fromHost := Flag.ofData (high ++ low)
      if flag.dmaId ≠ fromHost.dmaId then some { c with hpu := .polling flag none none }
      else some { c with hpu := .idle, returned := c.returned ++ [fromHost] }
    | _ => none
  | .pop =>
    match fpspinPopReq c with
    | none => some c
    | some f => some { c with hostIdx := f.dmaId, due := true, popped := c.popped ++ [f] }
  | .push flag =>
    -- one response for each request, and the ioctl of the last one has returned
    if c.due ∧ c.pending = none then
      let data := pushResp c.hostIdx h flag
      some { c with
        due := false, low := lowWord data, pending := some (highWord data),
        pushed := c.pushed ++ [Flag.ofData data] }
    else none
  | .writeHigh =>
    match c.pending with
    | some high => some { c with high := high, pending := none }
    | none => none

/-- All HPUs with the host: an action names the HPU whose channel it is about. -/
abbrev systemStep : (HpuId → Channel) → HpuId × Action → Option (HpuId → Channel) := Trace.interleave step

section Steps

variable {h : HpuId} {c c' : Channel}

theorem step_request {len : BitVec 32} (hNext : step h c (.request len) = some c') :
    c.hpu = .idle ∧
      c' = { c with
        dmaIdx := c.dmaIdx + 1, hpu := .writing (flagToHost c.dmaIdx h len),
        requested := c.requested ++ [flagToHost c.dmaIdx h len] } := by
  simp only [step] at hNext
  split at hNext
  next hHpu => exact ⟨hHpu, (Option.some.inj hNext).symm⟩
  next => cases hNext

theorem step_deliver (hNext : step h c .deliver = some c') :
    ∃ flag, c.hpu = .writing flag ∧ c' = { c with page := flag.data, hpu := .polling flag none none } := by
  simp only [step] at hNext
  split at hNext
  next flag hHpu => exact ⟨flag, hHpu, (Option.some.inj hNext).symm⟩
  next => cases hNext

theorem step_loadLow (hNext : step h c .loadLow = some c') :
    ∃ flag high, c.hpu = .polling flag none high ∧ c' = { c with hpu := .polling flag (some c.low) high } := by
  simp only [step] at hNext
  split at hNext
  next flag high hHpu => exact ⟨flag, high, hHpu, (Option.some.inj hNext).symm⟩
  next => cases hNext

theorem step_loadHigh (hNext : step h c .loadHigh = some c') :
    ∃ flag low, c.hpu = .polling flag low none ∧ c' = { c with hpu := .polling flag low (some c.high) } := by
  simp only [step] at hNext
  split at hNext
  next flag low hHpu => exact ⟨flag, low, hHpu, (Option.some.inj hNext).symm⟩
  next => cases hNext

theorem dmaId_append (high low : BitVec 32) : (Flag.ofData (high ++ low)).dmaId = low.extractLsb' 0 8 :=
  BitVec.extractLsb'_append_eq_of_add_le (by decide)

theorem step_compare (hNext : step h c .compare = some c') :
    ∃ flag low high, c.hpu = .polling flag (some low) (some high) ∧
      (flag.dmaId ≠ low.extractLsb' 0 8 ∧ c' = { c with hpu := .polling flag none none } ∨
        flag.dmaId = low.extractLsb' 0 8 ∧
          c' = { c with hpu := .idle, returned := c.returned ++ [Flag.ofData (high ++ low)] }) := by
  simp only [step] at hNext
  split at hNext
  next flag low high hHpu =>
    refine ⟨flag, low, high, hHpu, ?_⟩
    rw [dmaId_append] at hNext
    split at hNext
    next hId => exact .inl ⟨hId, (Option.some.inj hNext).symm⟩
    next hId => exact .inr ⟨not_not.mp hId, (Option.some.inj hNext).symm⟩
  next => cases hNext

theorem step_pop (hNext : step h c .pop = some c') :
    (Flag.ofData c.page).dmaId = c.hostIdx ∧ c' = c ∨
      (Flag.ofData c.page).dmaId ≠ c.hostIdx ∧
        c' = { c with
          hostIdx := (Flag.ofData c.page).dmaId, due := true, popped := c.popped ++ [Flag.ofData c.page] } := by
  simp only [step, fpspinPopReq] at hNext
  split at hNext
  next hNone =>
    rw [ite_eq_left_iff] at hNone
    exact .inl ⟨not_not.mp fun hId => Option.some_ne_none _ (hNone hId), (Option.some.inj hNext).symm⟩
  next f hSome =>
    obtain ⟨hId, hFlag⟩ := Option.ite_none_left_eq_some.mp hSome
    cases hFlag
    exact .inr ⟨hId, (Option.some.inj hNext).symm⟩

theorem step_push {flag : BitVec 64} (hNext : step h c (.push flag) = some c') :
    c.due = true ∧ c.pending = none ∧
      c' = { c with
        due := false, low := lowWord (pushResp c.hostIdx h flag),
        pending := some (highWord (pushResp c.hostIdx h flag)),
        pushed := c.pushed ++ [Flag.ofData (pushResp c.hostIdx h flag)] } := by
  obtain ⟨⟨hDue, hPending⟩, hEq⟩ := Option.ite_none_right_eq_some.mp hNext
  exact ⟨hDue, hPending, (Option.some.inj hEq).symm⟩

theorem step_writeHigh (hNext : step h c .writeHigh = some c') :
    ∃ high, c.pending = some high ∧ c' = { c with high := high, pending := none } := by
  simp only [step] at hNext
  split at hNext
  next high hPending => exact ⟨high, hPending, (Option.some.inj hNext).symm⟩
  next => cases hNext

end Steps

end FPsPIN.HostReq
