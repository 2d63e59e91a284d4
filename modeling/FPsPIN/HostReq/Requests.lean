import FPsPIN.HostReq.Model

/-!
# Requests are taken once

How far a call of fpspin_host_req has come can be told from the ids: the
counter of the HPU, the page, the counter of the host and the flag of the
response take the id of the request one after the other. What is said here
about requests holds for every interleaving and for any number of them: that
the ids wrap around does no harm, because only neighbours are compared. It says
nothing about the words of a response but its id.
-/

namespace FPsPIN.HostReq

def Channel.respId (c : Channel) : BitVec 8 := c.low.extractLsb' 0 8

/-- How far the last call of fpspin_host_req has come. -/
inductive Progress (c : Channel) : Prop
  | idle (hHpu : c.hpu = .idle) (hPage : (Flag.ofData c.page).dmaId = c.hostIdx) (hHost : c.hostIdx ≠ c.dmaIdx + 1)
      (hLow : c.respId ≠ c.dmaIdx + 1) (hDue : c.due = false) (hRequested : c.requested = c.popped)
      (hPushed : c.pushed.length = c.popped.length) (hReturned : c.returned.length = c.pushed.length)
  | sent {flag : Flag} (hHpu : c.hpu = .writing flag) (hId : flag.dmaId = c.dmaIdx)
      (hPage : (Flag.ofData c.page).dmaId = c.hostIdx) (hHost : c.hostIdx ≠ c.dmaIdx) (hLow : c.respId ≠ c.dmaIdx)
      (hDue : c.due = false) (hRequested : c.requested = c.popped ++ [flag])
      (hPushed : c.pushed.length = c.popped.length) (hReturned : c.returned.length = c.pushed.length)
  | delivered {flag : Flag} {low high : Option (BitVec 32)} (hHpu : c.hpu = .polling flag low high)
      (hId : flag.dmaId = c.dmaIdx) (hPage : Flag.ofData c.page = flag) (hHost : c.hostIdx ≠ c.dmaIdx)
      (hLow : c.respId ≠ c.dmaIdx) (hLoaded : ∀ v, low = some v → v.extractLsb' 0 8 ≠ c.dmaIdx)
      (hDue : c.due = false) (hRequested : c.requested = c.popped ++ [flag])
      (hPushed : c.pushed.length = c.popped.length) (hReturned : c.returned.length = c.pushed.length)
  | taken {flag : Flag} {low high : Option (BitVec 32)} (hHpu : c.hpu = .polling flag low high)
      (hId : flag.dmaId = c.dmaIdx) (hPage : (Flag.ofData c.page).dmaId = c.dmaIdx) (hHost : c.hostIdx = c.dmaIdx)
      (hLow : c.respId ≠ c.dmaIdx) (hLoaded : ∀ v, low = some v → v.extractLsb' 0 8 ≠ c.dmaIdx)
      (hDue : c.due = true) (hRequested : c.requested = c.popped)
      (hPushed : c.pushed.length + 1 = c.popped.length) (hReturned : c.returned.length = c.pushed.length)
  | answered {flag : Flag} {low high : Option (BitVec 32)} (hHpu : c.hpu = .polling flag low high)
      (hId : flag.dmaId = c.dmaIdx) (hPage : (Flag.ofData c.page).dmaId = c.dmaIdx) (hHost : c.hostIdx = c.dmaIdx)
      (hLow : c.respId = c.dmaIdx) (hDue : c.due = false) (hRequested : c.requested = c.popped)
      (hPushed : c.pushed.length = c.popped.length) (hReturned : c.returned.length + 1 = c.pushed.length)

namespace Progress

variable {h : HpuId} {c c' : Channel}

theorem request {len : BitVec 32} (hProgress : Progress c) (hNext : step h c (.request len) = some c') :
    Progress c' := by
  obtain ⟨hIdle, rfl⟩ := step_request hNext
  cases hProgress with
  | idle _ hPage hHost hLow hDue hRequested hPushed hReturned =>
    exact .sent rfl rfl hPage hHost hLow hDue (by rw [hRequested]) hPushed hReturned
  | sent hHpu | delivered hHpu | taken hHpu | answered hHpu => simp [hHpu] at hIdle

theorem deliver (hProgress : Progress c) (hNext : step h c .deliver = some c') : Progress c' := by
  obtain ⟨flag, hWriting, rfl⟩ := step_deliver hNext
  cases hProgress with
  | sent hHpu hId _ hHost hLow hDue hRequested hPushed hReturned =>
    cases hHpu.symm.trans hWriting
    exact .delivered rfl hId (Flag.ofData_data flag) hHost hLow nofun hDue hRequested hPushed hReturned
  | idle hHpu | delivered hHpu | taken hHpu | answered hHpu => simp [hHpu] at hWriting

theorem polling (hProgress : Progress c) {flag : Flag} {low high low' high' : Option (BitVec 32)}
    (hPolling : c.hpu = .polling flag low high) (hLow' : ∀ v, low' = some v → low = some v ∨ v = c.low) :
    Progress { c with hpu := .polling flag low' high' } := by
  cases hProgress with
  | idle hHpu | sent hHpu => simp [hHpu] at hPolling
  | delivered hHpu hId hPage hHost hLow hLoaded hDue hRequested hPushed hReturned =>
    cases hHpu.symm.trans hPolling
    refine .delivered rfl hId hPage hHost hLow (fun v hv => ?_) hDue hRequested hPushed hReturned
    obtain hOld | rfl := hLow' v hv
    · exact hLoaded v hOld
    · exact hLow
  | taken hHpu hId hPage hHost hLow hLoaded hDue hRequested hPushed hReturned =>
    cases hHpu.symm.trans hPolling
    refine .taken rfl hId hPage hHost hLow (fun v hv => ?_) hDue hRequested hPushed hReturned
    obtain hOld | rfl := hLow' v hv
    · exact hLoaded v hOld
    · exact hLow
  | answered hHpu hId hPage hHost hLow hDue hRequested hPushed hReturned =>
    cases hHpu.symm.trans hPolling
    exact .answered rfl hId hPage hHost hLow hDue hRequested hPushed hReturned

/-- A low word with the id of the request is not older than the response. -/
theorem loaded (hProgress : Progress c) {flag : Flag} {v : BitVec 32} {high : Option (BitVec 32)}
    (hPolling : c.hpu = .polling flag (some v) high) (hId : flag.dmaId = v.extractLsb' 0 8) :
    flag.dmaId = c.dmaIdx ∧ (Flag.ofData c.page).dmaId = c.dmaIdx ∧ c.hostIdx = c.dmaIdx ∧ c.respId = c.dmaIdx ∧
      c.due = false ∧ c.requested = c.popped ∧ c.pushed.length = c.popped.length ∧
      c.returned.length + 1 = c.pushed.length := by
  cases hProgress with
  | idle hHpu | sent hHpu => simp [hHpu] at hPolling
  | delivered hHpu hOwn _ _ _ hLoaded | taken hHpu hOwn _ _ _ hLoaded =>
    cases hHpu.symm.trans hPolling
    exact absurd (hId.symm.trans hOwn) (hLoaded v rfl)
  | answered hHpu hOwn hPage hHost hLow hDue hRequested hPushed hReturned =>
    cases hHpu.symm.trans hPolling
    exact ⟨hOwn, hPage, hHost, hLow, hDue, hRequested, hPushed, hReturned⟩

theorem ne_succ (x : BitVec 8) : x ≠ x + 1 := by
  bv_omega

theorem compare (hProgress : Progress c) (hNext : step h c .compare = some c') : Progress c' := by
  obtain ⟨flag, low, high, hPolling, ⟨-, rfl⟩ | ⟨hId, rfl⟩⟩ := step_compare hNext
  · exact hProgress.polling hPolling nofun
  · obtain ⟨-, hPage, hHost, hLow, hDue, hRequested, hPushed, hReturned⟩ := hProgress.loaded hPolling hId
    refine .idle rfl (hPage.trans hHost.symm) ?_ ?_ hDue hRequested hPushed ?_
    · exact hHost ▸ ne_succ c.hostIdx
    · exact fun hNew => ne_succ c.dmaIdx (hLow.symm.trans hNew)
    · exact List.length_append.trans hReturned

theorem pop (hProgress : Progress c) (hNext : step h c .pop = some c') : Progress c' := by
  obtain ⟨-, rfl⟩ | ⟨hNew, rfl⟩ := step_pop hNext
  · exact hProgress
  · cases hProgress with
    | idle _ hPage | sent _ _ hPage => exact absurd hPage hNew
    | delivered hHpu hId hPage _ hLow hLoaded _ hRequested hPushed hReturned =>
      cases hPage
      exact .taken hHpu hId hId hId hLow hLoaded rfl hRequested (by rw [List.length_append, hPushed]; rfl) hReturned
    | taken _ _ hPage hHost | answered _ _ hPage hHost => exact absurd (hPage.trans hHost.symm) hNew

theorem dmaId_lowWord (hostIdx : BitVec 8) (hpu : HpuId) (flag : BitVec 64) :
    (lowWord (pushResp hostIdx hpu flag)).extractLsb' 0 8 = hostIdx := by
  rw [← dmaId_append (highWord (pushResp hostIdx hpu flag)), high_append_low, ofData_pushResp]

theorem push {flag : BitVec 64} (hProgress : Progress c) (hNext : step h c (.push flag) = some c') :
    Progress c' := by
  obtain ⟨hTrue, -, rfl⟩ := step_push hNext
  cases hProgress with
  | taken hHpu hId hPage hHost _ _ _ hRequested hPushed hReturned =>
    refine .answered hHpu hId hPage hHost ?_ rfl hRequested (List.length_append.trans hPushed) ?_
    · exact (dmaId_lowWord c.hostIdx h flag).trans hHost
    · rw [List.length_append, hReturned]
      rfl
  | idle _ _ _ _ hDue | sent _ _ _ _ _ hDue | delivered _ _ _ _ _ _ hDue | answered _ _ _ _ _ hDue =>
    exact absurd (hDue.symm.trans hTrue) Bool.false_ne_true

theorem writeHigh (hProgress : Progress c) (hNext : step h c .writeHigh = some c') : Progress c' := by
  obtain ⟨high, -, rfl⟩ := step_writeHigh hNext
  cases hProgress with
  | idle hHpu hPage hHost hLow hDue hRequested hPushed hReturned =>
    exact .idle hHpu hPage hHost hLow hDue hRequested hPushed hReturned
  | sent hHpu hId hPage hHost hLow hDue hRequested hPushed hReturned =>
    exact .sent hHpu hId hPage hHost hLow hDue hRequested hPushed hReturned
  | delivered hHpu hId hPage hHost hLow hLoaded hDue hRequested hPushed hReturned =>
    exact .delivered hHpu hId hPage hHost hLow hLoaded hDue hRequested hPushed hReturned
  | taken hHpu hId hPage hHost hLow hLoaded hDue hRequested hPushed hReturned =>
    exact .taken hHpu hId hPage hHost hLow hLoaded hDue hRequested hPushed hReturned
  | answered hHpu hId hPage hHost hLow hDue hRequested hPushed hReturned =>
    exact .answered hHpu hId hPage hHost hLow hDue hRequested hPushed hReturned

theorem step {a : Action} (hProgress : Progress c) (hNext : HostReq.step h c a = some c') : Progress c' := by
  cases a with
  | request len => exact hProgress.request hNext
  | deliver => exact hProgress.deliver hNext
  | loadLow =>
    obtain ⟨flag, high, hPolling, rfl⟩ := step_loadLow hNext
    refine hProgress.polling hPolling fun v hv => .inr ?_
    exact (Option.some.inj hv).symm
  | loadHigh =>
    obtain ⟨flag, low, hPolling, rfl⟩ := step_loadHigh hNext
    exact hProgress.polling hPolling fun v hv => .inl hv
  | compare => exact hProgress.compare hNext
  | pop => exact hProgress.pop hNext
  | push flag => exact hProgress.push hNext
  | writeHigh => exact hProgress.writeHigh hNext

end Progress

/-- Each request is taken once, with the flag it carried, before the next one is made. -/
structure Taken (c : Channel) : Prop where
  popped : c.popped <+: c.requested
  /-- What is in the page and was not taken is what the next fpspin_pop_req returns. -/
  next : ∀ flag low high, c.hpu = .polling flag low high → c.popped.length < c.requested.length →
    c.requested = c.popped ++ [flag] ∧ fpspinPopReq c = some flag
  /-- It returns nothing else. -/
  null : c.popped = c.requested ∨ (∃ flag, c.hpu = .writing flag) → fpspinPopReq c = none
  idle : c.hpu = .idle → c.popped = c.requested

theorem fpspinPopReq_none {c : Channel} (hPage : (Flag.ofData c.page).dmaId = c.hostIdx) : fpspinPopReq c = none :=
  if_pos hPage

theorem Progress.toTaken {c : Channel} (hProgress : Progress c) : Taken c := by
  cases hProgress with
  | idle hHpu hPage _ _ _ hRequested =>
    exact ⟨hRequested ▸ List.prefix_rfl, fun _ _ _ hPolling => (nomatch hHpu.symm.trans hPolling),
      fun _ => fpspinPopReq_none hPage, fun _ => hRequested.symm⟩
  | sent hHpu _ hPage _ _ _ hRequested =>
    exact ⟨hRequested ▸ List.prefix_append _ _, fun _ _ _ hPolling => (nomatch hHpu.symm.trans hPolling),
      fun _ => fpspinPopReq_none hPage, fun hIdle => (nomatch hHpu.symm.trans hIdle)⟩
  | delivered hHpu hId hPage hHost _ _ _ hRequested =>
    refine ⟨hRequested ▸ List.prefix_append _ _, fun flag low high hPolling _ => ?_, ?_,
      fun hIdle => (nomatch hHpu.symm.trans hIdle)⟩
    · cases hHpu.symm.trans hPolling
      refine ⟨hRequested, (if_neg ?_).trans (congrArg some hPage)⟩
      rw [hPage, hId]
      exact hHost.symm
    · rintro (hAll | ⟨flag, hWriting⟩)
      · have hLength := congrArg List.length (hAll.trans hRequested)
        simp at hLength
      · cases hHpu.symm.trans hWriting
  | taken hHpu _ hPage hHost _ _ _ hRequested | answered hHpu _ hPage hHost _ _ hRequested =>
    refine ⟨hRequested ▸ List.prefix_rfl, fun _ _ _ _ hLess => ?_,
      fun _ => fpspinPopReq_none (hPage.trans hHost.symm), fun _ => hRequested.symm⟩
    rw [hRequested] at hLess
    exact absurd hLess (Nat.lt_irrefl _)

end FPsPIN.HostReq
