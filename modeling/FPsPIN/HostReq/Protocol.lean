import FPsPIN.HostReq.Requests

/-!
# Responses

The id of a response is in the low word and the low word is written first. A
poll that loads the low word after this write and the high word before the
second one ends with a flag of two responses: the top byte of len and the whole
hpu_id are those of the response before, or what the memory held at the start.
Apart from that a call returns what the host pushed for its request.
-/

namespace FPsPIN.HostReq

/-- The words agree in what a flag has of its high word, the top byte of len and hpu_id. -/
def SameHigh (v w : BitVec 32) : Prop := v.extractLsb' 0 24 = w.extractLsb' 0 24

instance (v w : BitVec 32) : Decidable (SameHigh v w) := inferInstanceAs (Decidable (_ = _))

theorem SameHigh.ofData_append {v w : BitVec 32} (hSame : SameHigh v w) (low : BitVec 32) :
    Flag.ofData (v ++ low) = Flag.ofData (w ++ low) := by
  apply Flag.ofData_congr
  apply BitVec.eq_of_getLsbD_eq
  intro i hi
  have hBit := congrArg (fun x : BitVec 24 => x.getLsbD (i - 32)) hSame
  have hIn : i - 32 < 24 := by omega
  simp only [BitVec.getLsbD_extractLsb', hIn, decide_true, Bool.true_and, Nat.zero_add] at hBit
  simp only [BitVec.getLsbD_extractLsb', BitVec.getLsbD_append, Nat.zero_add, hBit]

namespace HpuPhase

def low : HpuPhase → Option (BitVec 32)
  | polling _ low _ => low
  | _ => none

def high : HpuPhase → Option (BitVec 32)
  | polling _ _ high => high
  | _ => none

end HpuPhase

/-- The high word of the last response, written or not. -/
def Channel.highDue (c : Channel) : BitVec 32 := c.pending.getD c.high

theorem highDue_some {c : Channel} {w : BitVec 32} (hPending : c.pending = some w) : c.highDue = w := by
  rw [Channel.highDue, hPending, Option.getD_some]

theorem highDue_none {c : Channel} (hPending : c.pending = none) : c.highDue = c.high := by
  rw [Channel.highDue, hPending, Option.getD_none]

/-- A poll does not load from a response of which one word is written, nor has it loaded the high word when the low
word is written; unless the response leaves the fields of the high word as they are. -/
def Unsplit (h : HpuId) (c : Channel) : Action → Prop
  | .loadLow | .loadHigh => SameHigh c.highDue c.high
  | .push flag => SameHigh (highWord (pushResp c.hostIdx h flag)) c.high ∨ c.hpu.high = none
  | _ => True

instance (h : HpuId) (c : Channel) : (a : Action) → Decidable (Unsplit h c a)
  | .loadLow | .loadHigh => inferInstanceAs (Decidable (SameHigh c.highDue c.high))
  | .push flag =>
    inferInstanceAs (Decidable (SameHigh (highWord (pushResp c.hostIdx h flag)) c.high ∨ c.hpu.high = none))
  | .request _ | .deliver | .compare | .pop | .writeHigh => isTrue trivial

/-- The words that a poll has loaded are those of the last response, as far as its low word has the id. -/
structure Intact (c : Channel) : Prop where
  returned : c.returned <+: c.pushed
  last : ∀ f, c.pushed.getLast? = some f → Flag.ofData (c.highDue ++ c.low) = f
  highDue : SameHigh c.highDue c.high ∨ c.hpu.high = none ∧ ∀ v ∈ c.hpu.low, v.extractLsb' 0 8 ≠ c.dmaIdx
  high : ∀ w ∈ c.hpu.high, SameHigh w c.high
  low : ∀ v ∈ c.hpu.low, v.extractLsb' 0 8 = c.dmaIdx → v = c.low

namespace Intact

variable {h : HpuId} {c c' : Channel}

theorem unread (hIntact : Intact c) {dmaIdx : BitVec 8} {hpu : HpuPhase} {page : BitVec 64} {requested : List Flag}
    (hLow : hpu.low = none) (hHigh : hpu.high = none) :
    Intact { c with dmaIdx := dmaIdx, hpu := hpu, page := page, requested := requested } where
  returned := hIntact.returned
  last := hIntact.last
  highDue := .inr ⟨hHigh, hLow ▸ nofun⟩
  high := hHigh ▸ nofun
  low := hLow ▸ nofun

theorem loadLow (hIntact : Intact c) (hUnsplit : Unsplit h c .loadLow) (hNext : step h c .loadLow = some c') :
    Intact c' := by
  obtain ⟨flag, high, hPolling, rfl⟩ := step_loadLow hNext
  have hHigh := hIntact.high
  rw [hPolling] at hHigh
  refine ⟨hIntact.returned, hIntact.last, .inl hUnsplit, hHigh, ?_⟩
  rintro v hv -
  exact (Option.some.inj hv).symm

theorem loadHigh (hIntact : Intact c) (hUnsplit : Unsplit h c .loadHigh) (hNext : step h c .loadHigh = some c') :
    Intact c' := by
  obtain ⟨flag, low, hPolling, rfl⟩ := step_loadHigh hNext
  have hLow := hIntact.low
  rw [hPolling] at hLow
  refine ⟨hIntact.returned, hIntact.last, .inl hUnsplit, ?_, hLow⟩
  intro w hw
  cases hw
  rfl

/-- The flag that a poll ends with is the one response that was not returned. -/
theorem returned_eq (hIntact : Intact c) (hProgress : Progress c) {flag : Flag} {v w : BitVec 32}
    (hPolling : c.hpu = .polling flag (some v) (some w)) (hId : flag.dmaId = v.extractLsb' 0 8) :
    c.returned ++ [Flag.ofData (w ++ v)] = c.pushed := by
  obtain ⟨hOwn, -, -, -, -, -, -, hLength⟩ := hProgress.loaded hPolling hId
  obtain ⟨rest, hRest⟩ := hIntact.returned
  obtain ⟨f, rfl⟩ : ∃ f, rest = [f] := by
    rw [← List.length_eq_one_iff]
    have := congrArg List.length hRest
    rw [List.length_append] at this
    omega
  have hLow : v = c.low := by
    apply hIntact.low v
    · rw [hPolling]
      rfl
    · exact hId.symm.trans hOwn
  have hHigh : SameHigh w c.high := by
    apply hIntact.high w
    rw [hPolling]
    rfl
  have hDue : SameHigh w c.highDue := by
    obtain hSame | ⟨hNone, -⟩ := hIntact.highDue
    · exact hHigh.trans hSame.symm
    · rw [hPolling] at hNone
      cases hNone
  have hLast : Flag.ofData (c.highDue ++ c.low) = f := by
    apply hIntact.last
    rw [← hRest, List.getLast?_concat]
  rw [← hRest, hLow, hDue.ofData_append, hLast]

theorem compare (hIntact : Intact c) (hProgress : Progress c) (hNext : step h c .compare = some c') :
    Intact c' := by
  obtain ⟨flag, low, high, hPolling, ⟨-, rfl⟩ | ⟨hId, rfl⟩⟩ := step_compare hNext
  · exact hIntact.unread rfl rfl
  · have hIdle : Intact { c with hpu := .idle } := hIntact.unread rfl rfl
    refine ⟨?_, hIdle.last, hIdle.highDue, hIdle.high, hIdle.low⟩
    rw [hIntact.returned_eq hProgress hPolling hId]

theorem pop (hIntact : Intact c) (hNext : step h c .pop = some c') : Intact c' := by
  obtain ⟨-, rfl⟩ | ⟨-, rfl⟩ := step_pop hNext
  · exact hIntact
  · exact ⟨hIntact.returned, hIntact.last, hIntact.highDue, hIntact.high, hIntact.low⟩

theorem push {flag : BitVec 64} (hIntact : Intact c) (hProgress : Progress c) (hUnsplit : Unsplit h c (.push flag))
    (hNext : step h c (.push flag) = some c') : Intact c' := by
  obtain ⟨hTrue, -, rfl⟩ := step_push hNext
  -- a low word loaded before has another id
  have hOld : ∀ v ∈ c.hpu.low, v.extractLsb' 0 8 ≠ c.dmaIdx := by
    cases hProgress with
    | taken hHpu _ _ _ _ hLoaded =>
      rw [hHpu]
      exact hLoaded
    | idle _ _ _ _ hDue | sent _ _ _ _ _ hDue | delivered _ _ _ _ _ _ hDue | answered _ _ _ _ _ hDue =>
      exact absurd (hDue.symm.trans hTrue) Bool.false_ne_true
  refine ⟨hIntact.returned.trans (List.prefix_append _ _), fun f hf => ?_, ?_, hIntact.high,
    fun v hv hId => absurd hId (hOld v hv)⟩
  · rw [List.getLast?_concat] at hf
    cases hf
    exact congrArg Flag.ofData (high_append_low _)
  · exact hUnsplit.imp_right fun hNone => ⟨hNone, hOld⟩

theorem writeHigh (hIntact : Intact c) (hNext : step h c .writeHigh = some c') : Intact c' := by
  obtain ⟨high, hPending, rfl⟩ := step_writeHigh hNext
  have hLast := hIntact.last
  have hDue := hIntact.highDue
  rw [highDue_some hPending] at hLast hDue
  refine ⟨hIntact.returned, hLast, .inl rfl, fun w hw => ?_, hIntact.low⟩
  obtain hSame | ⟨hNone, -⟩ := hDue
  · exact (hIntact.high w hw).trans hSame.symm
  · cases hNone.symm.trans hw

theorem step {a : Action} (hIntact : Intact c) (hProgress : Progress c) (hUnsplit : Unsplit h c a)
    (hNext : HostReq.step h c a = some c') : Intact c' := by
  cases a with
  | request len =>
    obtain ⟨-, rfl⟩ := step_request hNext
    exact hIntact.unread rfl rfl
  | deliver =>
    obtain ⟨flag, -, rfl⟩ := step_deliver hNext
    exact hIntact.unread rfl rfl
  | loadLow => exact hIntact.loadLow hUnsplit hNext
  | loadHigh => exact hIntact.loadHigh hUnsplit hNext
  | compare => exact hIntact.compare hProgress hNext
  | pop => exact hIntact.pop hNext
  | push flag => exact hIntact.push hProgress hUnsplit hNext
  | writeHigh => exact hIntact.writeHigh hNext

end Intact

def Action.IsPoll (a : Action) : Prop := a = .loadLow ∨ a = .loadHigh ∨ a = .compare

/-- The HPU ends its call without any further action of the host, and has all responses then. -/
def Returns (h : HpuId) (c : Channel) : Prop :=
  ∃ as c', (∀ a ∈ as, Action.IsPoll a) ∧ Trace.run (step h) c as = some c' ∧
    c'.hpu = .idle ∧ c'.returned = c.pushed

section Returns

variable {h : HpuId} {c : Channel}

theorem Returns.of_step {c' : Channel} {a : Action} (hPoll : a.IsPoll) (hNext : step h c a = some c')
    (hPushed : c'.pushed = c.pushed) (hReturns : Returns h c') : Returns h c := by
  obtain ⟨as, last, hAll, hRun, hIdle, hLast⟩ := hReturns
  refine ⟨a :: as, last, ?_, Trace.run_cons.mpr ⟨c', hNext, hRun⟩, hIdle, hLast.trans hPushed⟩
  exact List.forall_mem_cons.mpr ⟨hPoll, hAll⟩

structure Complete (c : Channel) : Prop where
  progress : Progress c
  intact : Intact c
  pending : c.pending = none

theorem Complete.step {c' : Channel} {a : Action} (hComplete : Complete c) (hPoll : a.IsPoll)
    (hNext : HostReq.step h c a = some c') (hPending : c'.pending = c.pending) : Complete c' where
  progress := hComplete.progress.step hNext
  intact := by
    refine hComplete.intact.step hComplete.progress ?_ hNext
    obtain rfl | rfl | rfl := hPoll
    · exact congrArg _ (highDue_none hComplete.pending)
    · exact congrArg _ (highDue_none hComplete.pending)
    · trivial
  pending := hPending.trans hComplete.pending

variable {flag : Flag} {low high : Option (BitVec 32)}

theorem returns_of_both (hComplete : Complete c) {v w : BitVec 32}
    (hPolling : c.hpu = .polling flag (some v) (some w)) (hId : flag.dmaId = v.extractLsb' 0 8) : Returns h c := by
  have hNext : step h c .compare = some { c with hpu := .idle, returned := c.returned ++ [Flag.ofData (w ++ v)] } := by
    simp [step, hPolling, dmaId_append, hId]
  refine ⟨[.compare], _, ?_, Trace.run_cons.mpr ⟨_, hNext, rfl⟩, rfl, ?_⟩
  · exact fun a ha => .inr (.inr (List.mem_singleton.mp ha))
  · exact hComplete.intact.returned_eq hComplete.progress hPolling hId

theorem Returns.of_loadHigh (hComplete : Complete c) (hPolling : c.hpu = .polling flag low none)
    (hReturns : ∀ c' : Channel, Complete c' → c'.hpu = .polling flag low (some c.high) → c'.respId = c.respId →
      Returns h c') : Returns h c := by
  have hNext : step h c .loadHigh = some { c with hpu := .polling flag low (some c.high) } := by
    simp [step, hPolling]
  refine .of_step (.inr (.inl rfl)) hNext rfl (hReturns _ (hComplete.step (.inr (.inl rfl)) hNext rfl) rfl rfl)

theorem returns_of_loaded (hComplete : Complete c) {v : BitVec 32} (hPolling : c.hpu = .polling flag (some v) high)
    (hId : flag.dmaId = v.extractLsb' 0 8) : Returns h c := by
  cases high with
  | some w => exact returns_of_both hComplete hPolling hId
  | none => exact .of_loadHigh hComplete hPolling fun c' hComplete' hHpu _ => returns_of_both hComplete' hHpu hId

theorem returns_of_unloaded (hComplete : Complete c) (hPolling : c.hpu = .polling flag none high)
    (hId : flag.dmaId = c.respId) : Returns h c := by
  have hNext : step h c .loadLow = some { c with hpu := .polling flag (some c.low) high } := by
    simp [step, hPolling]
  refine .of_step (.inl rfl) hNext rfl ?_
  exact returns_of_loaded (hComplete.step (.inl rfl) hNext rfl) rfl hId

theorem returns_of_differ (hComplete : Complete c) {v w : BitVec 32}
    (hPolling : c.hpu = .polling flag (some v) (some w)) (hStale : flag.dmaId ≠ v.extractLsb' 0 8)
    (hId : flag.dmaId = c.respId) : Returns h c := by
  have hNext : step h c .compare = some { c with hpu := .polling flag none none } := by
    simp [step, hPolling, dmaId_append, hStale]
  refine .of_step (.inr (.inr rfl)) hNext rfl ?_
  exact returns_of_unloaded (hComplete.step (.inr (.inr rfl)) hNext rfl) rfl hId

theorem returns_of_stale (hComplete : Complete c) {v : BitVec 32} (hPolling : c.hpu = .polling flag (some v) high)
    (hStale : flag.dmaId ≠ v.extractLsb' 0 8) (hId : flag.dmaId = c.respId) : Returns h c := by
  cases high with
  | some w => exact returns_of_differ hComplete hPolling hStale hId
  | none =>
    refine .of_loadHigh hComplete hPolling fun c' hComplete' hHpu hResp => ?_
    exact returns_of_differ hComplete' hHpu hStale (hId.trans hResp.symm)

theorem returns (hComplete : Complete c) (hPolling : c.hpu = .polling flag low high)
    (hId : flag.dmaId = c.respId) : Returns h c := by
  cases low with
  | none => exact returns_of_unloaded hComplete hPolling hId
  | some v =>
    by_cases hLoaded : flag.dmaId = v.extractLsb' 0 8
    · exact returns_of_loaded hComplete hPolling hLoaded
    · exact returns_of_stale hComplete hPolling hLoaded hId

end Returns

/-- Requests are taken once, and calls return the responses in the order of the requests. -/
structure Served (h : HpuId) (c : Channel) : Prop extends Taken c where
  returned : c.returned <+: c.pushed
  pushed : c.pushed.length ≤ c.popped.length
  /-- Between calls each request has been taken, and its response is the one that was returned. -/
  done : c.hpu = .idle → c.returned = c.pushed ∧ c.pushed.length = c.requested.length
  /-- A call whose response is in PsPIN memory returns. -/
  returns : c.returned.length < c.pushed.length → c.pending = none → Returns h c

theorem served {h : HpuId} {c : Channel} (hProgress : Progress c) (hIntact : Intact c) : Served h c := by
  refine ⟨hProgress.toTaken, hIntact.returned, ?_, fun hIdle => ?_, fun hLess hPending => ?_⟩
  · cases hProgress with
    | idle _ _ _ _ _ _ hPushed | sent _ _ _ _ _ _ _ hPushed | delivered _ _ _ _ _ _ _ _ hPushed
    | answered _ _ _ _ _ _ _ hPushed => exact hPushed.le
    | taken _ _ _ _ _ _ _ _ hPushed => exact (Nat.le_succ _).trans hPushed.le
  · cases hProgress with
    | idle _ _ _ _ _ hRequested hPushed hReturned =>
      exact ⟨hIntact.returned.eq_of_length hReturned, hRequested ▸ hPushed⟩
    | sent hHpu | delivered hHpu | taken hHpu | answered hHpu => simp [hHpu] at hIdle
  · have hComplete : Complete c := ⟨hProgress, hIntact, hPending⟩
    cases hProgress with
    | answered hHpu hId _ _ hLow => exact HostReq.returns hComplete hHpu (hId.trans hLow.symm)
    | idle _ _ _ _ _ _ _ hReturned | sent _ _ _ _ _ _ _ _ hReturned | delivered _ _ _ _ _ _ _ _ _ hReturned
    | taken _ _ _ _ _ _ _ _ _ hReturned => exact absurd hReturned hLess.ne

/-- Equal counters on both sides, and a flag of the response with another id than the next request. -/
structure Start (c : Channel) : Prop where
  hpu : c.hpu = .idle
  hostIdx : c.hostIdx = c.dmaIdx
  page : (Flag.ofData c.page).dmaId = c.dmaIdx
  respId : c.respId ≠ c.dmaIdx + 1
  due : c.due = false
  pending : c.pending = none
  requested : c.requested = []
  popped : c.popped = []
  pushed : c.pushed = []
  returned : c.returned = []

namespace Start

variable {c : Channel} (hStart : Start c)

include hStart

theorem progress : Progress c := by
  refine .idle hStart.hpu (hStart.page.trans hStart.hostIdx.symm) ?_ hStart.respId hStart.due ?_ ?_ ?_
  · exact hStart.hostIdx ▸ Progress.ne_succ c.hostIdx
  · rw [hStart.requested, hStart.popped]
  · rw [hStart.pushed, hStart.popped]
  · rw [hStart.returned, hStart.pushed]

theorem intact : Intact c where
  returned := by rw [hStart.returned]; exact List.nil_prefix
  last := by rw [hStart.pushed]; nofun
  highDue := .inl (congrArg _ (highDue_none hStart.pending))
  high := by rw [hStart.hpu]; nofun
  low := by rw [hStart.hpu]; nofun

end Start

theorem requests_served {s s' : HpuId → Channel} {as : List (HpuId × Action)} (hStart : ∀ h, Start (s h))
    (hAlong : Trace.Along systemStep (fun s a => Unsplit a.1 (s a.1) a.2) s as)
    (hRun : Trace.run systemStep s as = some s') (h : HpuId) : Served h (s' h) := by
  have hInv : ∀ h, Progress (s' h) ∧ Intact (s' h) := by
    refine Trace.along_invariant (fun s : HpuId → Channel => ∀ h, Progress (s h) ∧ Intact (s h)) ?_
      (fun h => ⟨(hStart h).progress, (hStart h).intact⟩) hAlong hRun
    intro s a s' hInv hUnsplit hNext
    refine Trace.interleave_forall hNext (fun _ c => Progress c ∧ Intact c) hInv fun next hOne => ?_
    obtain ⟨hProgress, hIntact⟩ := hInv a.1
    exact ⟨hProgress.step hOne, hIntact.step hProgress hUnsplit hOne⟩
  exact served (hInv h).1 (hInv h).2

theorem start_zeroChannel : Start zeroChannel :=
  ⟨rfl, rfl, by decide +kernel, by decide +kernel, rfl, rfl, rfl, rfl, rfl, rfl⟩

def hpuOne : HpuId := ⟨1, Nat.one_lt_succ_succ 14⟩

/-- The host answers a request of 5 bytes with a flag of 0x01000005 bytes, up to the first write. -/
def halfAnswered : List (HpuId × Action) :=
  [(hpuOne, .request 5), (hpuOne, .deliver), (hpuOne, .pop), (hpuOne, .push (Flag.data ⟨0, 0x01000005, 0⟩))]

def poll : List (HpuId × Action) := [(hpuOne, .loadLow), (hpuOne, .loadHigh), (hpuOne, .compare)]

theorem requests_served_unsplit :
    ∃ s', Trace.run systemStep (fun _ => zeroChannel) (halfAnswered ++ (hpuOne, .writeHigh) :: poll) = some s' ∧
      (s' hpuOne).returned = [⟨1, 0x01000005, 1⟩] ∧ Served hpuOne (s' hpuOne) := by
  have hReturned : (Trace.run systemStep (fun _ => zeroChannel) (halfAnswered ++ (hpuOne, .writeHigh) :: poll)).map
      (fun s => (s hpuOne).returned) = some [⟨1, 0x01000005, 1⟩] := by decide +kernel
  obtain ⟨s', hRun, hEq⟩ := Option.map_eq_some_iff.mp hReturned
  exact ⟨s', hRun, hEq, requests_served (fun _ => start_zeroChannel) (by decide +kernel) hRun hpuOne⟩

/-- A poll between the two writes returns the top byte of len and the hpu_id that were there before. -/
theorem response_split :
    ∃ s', Trace.run systemStep (fun _ => zeroChannel) (halfAnswered ++ poll) = some s' ∧
      (s' hpuOne).pushed = [⟨1, 0x01000005, 1⟩] ∧ (s' hpuOne).returned = [⟨1, 5, 0⟩] ∧
      ¬ Served hpuOne (s' hpuOne) := by
  have hLists : (Trace.run systemStep (fun _ => zeroChannel) (halfAnswered ++ poll)).map
      (fun s => ((s hpuOne).pushed, (s hpuOne).returned)) = some ([⟨1, 0x01000005, 1⟩], [⟨1, 5, 0⟩]) := by
    decide +kernel
  obtain ⟨s', hRun, hEq⟩ := Option.map_eq_some_iff.mp hLists
  obtain ⟨hPushed, hReturned⟩ := Prod.mk.inj hEq
  refine ⟨s', hRun, hPushed, hReturned, fun hServed => ?_⟩
  have hPrefix := hServed.returned
  rw [hPushed, hReturned] at hPrefix
  exact absurd hPrefix (by decide +kernel)

end FPsPIN.HostReq
