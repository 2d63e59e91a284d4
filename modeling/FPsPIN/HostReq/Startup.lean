import FPsPIN.HostReq.Requests

/-!
# Start-up

fpspin_init turns the matching engine on and afterwards takes its counters from
the flags in the pages. A request that arrives in between is taken for the old
state of the page: its id becomes the counter of the host, no fpspin_pop_req
returns it, and the HPU polls forever. The steps of fpspin_init are interleaved
here with those of the HPUs. The calls that fail end the start-up and are left
out.

Neither the counter of an HPU nor its response flag is in a section that
fpspin_load writes, so both are what the memory of PsPIN held before.
-/

namespace FPsPIN.HostReq

/-- What fpspin_init has done. -/
inductive InitStage
  | start
  | mapped
  | loaded
  | enabled
  | reading (flags : Nat)
deriving DecidableEq

namespace InitStage

def flagsRead : InitStage → Nat
  | reading flags => flags
  | _ => 0

def meOn : InitStage → Bool
  | enabled | reading _ => true
  | _ => false

end InitStage

structure Startup where
  stage : InitStage
  channels : HpuId → Channel

/-- The actions of the host; the others are those of the HPU. -/
def Action.ofHost : Action → Bool
  | .pop | .push _ | .writeHigh => true
  | .request _ | .deliver | .loadLow | .loadHigh | .compare => false

def fpspinInitStep (s : Startup) : Option Startup :=
  match s.stage with
  | .start => some ⟨.mapped, fun h => { s.channels h with page := 0 }⟩
  -- fpspin_load resets the clusters
  | .mapped => some ⟨.loaded, fun h => { s.channels h with hpu := .idle }⟩
  | .loaded => some { s with stage := .enabled }
  | .enabled => some ⟨.reading 0, fun h => { s.channels h with hostIdx := 0 }⟩
  | .reading flags =>
    if hFlags : flags < coreCount then
      let c := s.channels ⟨flags, hFlags⟩
      some ⟨.reading (flags + 1),
        Function.update s.channels ⟨flags, hFlags⟩ { c with hostIdx := (Flag.ofData c.page).dmaId }⟩
    else none

inductive StartupAction
  | init
  | channel (h : HpuId) (a : Action)

/-- The HPUs run handlers once the matching engine is on, the host takes requests when fpspin_init has returned. -/
def startupStep (s : Startup) : StartupAction → Option Startup
  | .init => fpspinInitStep s
  | .channel h a =>
    if s.stage.meOn ∧ (a.ofHost → s.stage = .reading coreCount) then
      (systemStep s.channels (h, a)).map fun channels => { s with channels := channels }
    else none

/-- An HPU makes requests only after fpspin_init has read its flag. -/
def ReadFirst (s : Startup) : StartupAction → Prop
  | .channel h (.request _) => h < s.stage.flagsRead
  | _ => True

instance (s : Startup) : (a : StartupAction) → Decidable (ReadFirst s a)
  | .init => isTrue trivial
  | .channel h a =>
    match a with
    | .request _ => inferInstanceAs (Decidable (h.val < s.stage.flagsRead))
    | .deliver | .loadLow | .loadHigh | .compare | .pop | .push _ | .writeHigh => isTrue trivial

/-- A channel that was not used yet. The first id is not that of a zeroed page, nor is it in the response flag. -/
structure Unused (c : Channel) : Prop where
  firstId : c.dmaIdx + 1 ≠ 0
  respId : c.respId ≠ c.dmaIdx + 1
  due : c.due = false
  requested : c.requested = []
  popped : c.popped = []
  pushed : c.pushed = []
  returned : c.returned = []

theorem Unused.init {c : Channel} (hUnused : Unused c) (page : BitVec 64) (hpu : HpuPhase) (hostIdx : BitVec 8) :
    Unused { c with page := page, hpu := hpu, hostIdx := hostIdx } :=
  ⟨hUnused.firstId, hUnused.respId, hUnused.due, hUnused.requested, hUnused.popped, hUnused.pushed,
    hUnused.returned⟩

structure Quiet (stage : InitStage) (c : Channel) : Prop extends Unused c where
  page : stage ≠ .start → c.page = 0
  hpu : stage ≠ .start → stage ≠ .mapped → c.hpu = .idle

theorem Quiet.progress {stage : InitStage} {c : Channel} (hQuiet : Quiet stage c) (hMapped : stage ≠ .start)
    (hLoaded : stage ≠ .mapped) : Progress { c with hostIdx := (Flag.ofData c.page).dmaId } := by
  have hZero : (Flag.ofData c.page).dmaId = 0 := by
    rw [hQuiet.page hMapped]
    exact BitVec.extractLsb'_zero
  refine .idle (hQuiet.hpu hMapped hLoaded) rfl ?_ hQuiet.respId hQuiet.due ?_ ?_ ?_
  · exact hZero ▸ hQuiet.firstId.symm
  · exact hQuiet.requested.trans hQuiet.popped.symm
  · rw [hQuiet.pushed, hQuiet.popped]
  · rw [hQuiet.returned, hQuiet.pushed]

def ChannelInv (stage : InitStage) (h : HpuId) (c : Channel) : Prop :=
  if h < stage.flagsRead then Progress c else Quiet stage c

section ChannelInv

variable {stage : InitStage} {h : HpuId} {c : Channel}

theorem channelInv_of_read (hRead : h < stage.flagsRead) : ChannelInv stage h c ↔ Progress c := by
  rw [ChannelInv, if_pos hRead]

theorem channelInv_of_not_read (hNot : ¬ h < stage.flagsRead) : ChannelInv stage h c ↔ Quiet stage c := by
  rw [ChannelInv, if_neg hNot]

theorem channelInv_quiet (hNone : stage.flagsRead = 0) : ChannelInv stage h c ↔ Quiet stage c :=
  channelInv_of_not_read (hNone ▸ Nat.not_lt_zero h)

theorem channelInv_flag {channels : HpuId → Channel} {flags : Nat} (hFlags : flags < coreCount)
    (hInv : ∀ h, ChannelInv (.reading flags) h (channels h)) (h : HpuId) :
    ChannelInv (.reading (flags + 1)) h
      (Function.update channels ⟨flags, hFlags⟩ { channels ⟨flags, hFlags⟩ with
      hostIdx := (Flag.ofData (channels ⟨flags, hFlags⟩).page).dmaId } h) := by
  have hOld := hInv h
  by_cases hFlag : h = ⟨flags, hFlags⟩
  · subst hFlag
    rw [Function.update_self, channelInv_of_read (Nat.lt_succ_self flags)]
    exact ((channelInv_of_not_read (Nat.lt_irrefl flags)).mp hOld).progress nofun nofun
  · -- the counters of the other HPUs are left alone
    have hNe : h.val ≠ flags := fun hEq => hFlag (Fin.ext hEq)
    rw [Function.update_of_ne hFlag]
    by_cases hRead : h.val < flags
    · rw [channelInv_of_read (Nat.lt_succ_of_lt hRead)]
      exact (channelInv_of_read hRead).mp hOld
    · have hNot : ¬ h.val < flags + 1 := by omega
      have hQuiet := (channelInv_of_not_read hRead).mp hOld
      rw [channelInv_of_not_read hNot]
      exact ⟨hQuiet.toUnused, fun _ => hQuiet.page nofun, fun _ _ => hQuiet.hpu nofun nofun⟩

end ChannelInv

section Steps

variable {s s' : Startup}

theorem channelInv_init (hInv : ∀ h, ChannelInv s.stage h (s.channels h)) (hNext : fpspinInitStep s = some s')
    (h : HpuId) : ChannelInv s'.stage h (s'.channels h) := by
  obtain ⟨stage, channels⟩ := s
  cases stage with
  | start =>
    cases hNext
    have hQuiet := (channelInv_quiet rfl).mp (hInv h)
    exact (channelInv_quiet rfl).mpr ⟨hQuiet.init 0 _ _, fun _ => rfl, fun _ hLoaded => absurd rfl hLoaded⟩
  | mapped =>
    cases hNext
    have hQuiet := (channelInv_quiet rfl).mp (hInv h)
    exact (channelInv_quiet rfl).mpr ⟨hQuiet.init _ .idle _, fun _ => hQuiet.page nofun, fun _ _ => rfl⟩
  | loaded =>
    cases hNext
    have hQuiet := (channelInv_quiet rfl).mp (hInv h)
    exact (channelInv_quiet rfl).mpr
      ⟨hQuiet.toUnused, fun _ => hQuiet.page nofun, fun _ _ => hQuiet.hpu nofun nofun⟩
  | enabled =>
    cases hNext
    have hQuiet := (channelInv_quiet rfl).mp (hInv h)
    exact (channelInv_quiet rfl).mpr
      ⟨hQuiet.init _ _ 0, fun _ => hQuiet.page nofun, fun _ _ => hQuiet.hpu nofun nofun⟩
  | reading flags =>
    obtain ⟨hFlags, hEq⟩ := Option.dite_none_right_eq_some.mp hNext
    cases hEq
    exact channelInv_flag hFlags hInv h

theorem startupStep_channel {h : HpuId} {a : Action} (hNext : startupStep s (.channel h a) = some s') :
    s.stage.meOn = true ∧ (a.ofHost → s.stage = .reading coreCount) ∧ s'.stage = s.stage ∧
      systemStep s.channels (h, a) = some s'.channels := by
  obtain ⟨⟨hOn, hHost⟩, hSome⟩ := Option.ite_none_right_eq_some.mp hNext
  obtain ⟨channels, hChannels, rfl⟩ := Option.map_eq_some_iff.mp hSome
  exact ⟨hOn, hHost, rfl, hChannels⟩

theorem read_of_step {h : HpuId} {a : Action} {c' : Channel} (hInv : ChannelInv s.stage h (s.channels h))
    (hFirst : ReadFirst s (.channel h a)) (hOn : s.stage.meOn = true)
    (hHost : a.ofHost → s.stage = .reading coreCount) (hStep : step h (s.channels h) a = some c') :
    h < s.stage.flagsRead := by
  by_contra hNot
  have hQuiet := (channelInv_of_not_read hNot).mp hInv
  have hIdle : (s.channels h).hpu = .idle := by
    apply hQuiet.hpu
    · rintro hStage
      rw [hStage] at hOn
      exact Bool.false_ne_true hOn
    · rintro hStage
      rw [hStage] at hOn
      exact Bool.false_ne_true hOn
  have hUnread : s.stage ≠ .reading coreCount := by
    intro hStage
    rw [hStage] at hNot
    exact hNot h.isLt
  cases a with
  | request len => exact hNot hFirst
  | deliver | loadLow | loadHigh | compare => simp [step, hIdle] at hStep
  | pop | push flag | writeHigh => exact hUnread (hHost rfl)

theorem channelInv_step {a : StartupAction} (hInv : ∀ h, ChannelInv s.stage h (s.channels h))
    (hFirst : ReadFirst s a) (hNext : startupStep s a = some s') :
    ∀ h, ChannelInv s'.stage h (s'.channels h) := by
  cases a with
  | init => exact channelInv_init hInv hNext
  | channel h a =>
    obtain ⟨hOn, hHost, hStage, hChannels⟩ := startupStep_channel hNext
    rw [hStage]
    refine Trace.interleave_forall hChannels (ChannelInv s.stage) hInv fun next hStep => ?_
    have hRead := read_of_step (hInv h) hFirst hOn hHost hStep
    have hProgress := (channelInv_of_read hRead).mp (hInv h)
    exact (channelInv_of_read hRead).mpr (hProgress.step hStep)

end Steps

/-- No request of the HPU is lost. -/
structure NotLost (s : Startup) (h : HpuId) : Prop where
  popped : (s.channels h).popped <+: (s.channels h).requested
  /-- A request that is in the page is the next that fpspin_pop_req returns. -/
  next : s.stage = .reading coreCount → ∀ flag low high, (s.channels h).hpu = .polling flag low high →
    (s.channels h).popped.length < (s.channels h).requested.length →
    (s.channels h).requested = (s.channels h).popped ++ [flag] ∧ fpspinPopReq (s.channels h) = some flag
  /-- If fpspin_init has not returned, it does so with the request still to be taken. -/
  returns : s.stage.meOn = true → ∀ flag low high, (s.channels h).hpu = .polling flag low high →
    (s.channels h).popped.length < (s.channels h).requested.length →
    ∃ n s', Trace.run startupStep s (List.replicate n .init) = some s' ∧ s'.stage = .reading coreCount ∧
      fpspinPopReq (s'.channels h) = some flag
  /-- The HPU makes no further request before. -/
  further : (s.channels h).hpu = .idle → (s.channels h).popped = (s.channels h).requested

/-- The remaining flags are read without a look at those that have been. -/
theorem init_returns (n : Nat) {flags : Nat} (hFlags : flags + n = coreCount) (channels : HpuId → Channel) :
    ∃ s', Trace.run startupStep ⟨.reading flags, channels⟩ (List.replicate n .init) = some s' ∧
      s'.stage = .reading coreCount ∧ ∀ h : HpuId, h.val < flags → s'.channels h = channels h := by
  induction n generalizing flags channels with
  | zero => exact ⟨_, rfl, congrArg _ hFlags, fun _ _ => rfl⟩
  | succ n ih =>
    have hLess : flags < coreCount := by omega
    have hRest : flags + 1 + n = coreCount := by omega
    obtain ⟨s', hRun, hStage, hSame⟩ := ih hRest (Function.update channels ⟨flags, hLess⟩
      { channels ⟨flags, hLess⟩ with hostIdx := (Flag.ofData (channels ⟨flags, hLess⟩).page).dmaId })
    refine ⟨s', Trace.run_cons.mpr ⟨_, dif_pos hLess, hRun⟩, hStage, fun h hRead => ?_⟩
    rw [hSame h (Nat.lt_succ_of_lt hRead)]
    exact Function.update_of_ne (fun hEq => hRead.ne (congrArg Fin.val hEq)) _ _

structure StartupInv (s : Startup) : Prop where
  flagsRead : s.stage.flagsRead ≤ coreCount
  channel : ∀ h, ChannelInv s.stage h (s.channels h)

theorem flagsRead_le_of_init {s s' : Startup} (hLe : s.stage.flagsRead ≤ coreCount)
    (hNext : fpspinInitStep s = some s') : s'.stage.flagsRead ≤ coreCount := by
  obtain ⟨stage, channels⟩ := s
  cases stage with
  | start | mapped | loaded | enabled =>
    cases hNext
    exact Nat.zero_le _
  | reading flags =>
    obtain ⟨hFlags, hEq⟩ := Option.dite_none_right_eq_some.mp hNext
    cases hEq
    exact hFlags

theorem StartupInv.step {s s' : Startup} {a : StartupAction} (hInv : StartupInv s) (hFirst : ReadFirst s a)
    (hNext : startupStep s a = some s') : StartupInv s' := by
  refine ⟨?_, channelInv_step hInv.channel hFirst hNext⟩
  cases a with
  | init => exact flagsRead_le_of_init hInv.flagsRead hNext
  | channel h a =>
    rw [(startupStep_channel hNext).2.2.1]
    exact hInv.flagsRead

theorem StartupInv.notLost {s : Startup} (hInv : StartupInv s) (h : HpuId) : NotLost s h := by
  by_cases hRead : h < s.stage.flagsRead
  · have hTaken := ((channelInv_of_read hRead).mp (hInv.channel h)).toTaken
    refine ⟨hTaken.popped, fun _ => hTaken.next, fun _ flag low high hPolling hLess => ?_, hTaken.idle⟩
    obtain ⟨stage, channels⟩ := s
    cases stage with
    | start | mapped | loaded | enabled => exact absurd hRead (Nat.not_lt_zero h)
    | reading flags =>
      obtain ⟨s', hRun, hStage, hSame⟩ := init_returns (coreCount - flags)
        (Nat.add_sub_cancel' hInv.flagsRead) channels
      refine ⟨coreCount - flags, s', hRun, hStage, ?_⟩
      rw [hSame h hRead]
      exact (hTaken.next flag low high hPolling hLess).2
  · have hQuiet := (channelInv_of_not_read hRead).mp (hInv.channel h)
    have hNone : (s.channels h).popped = (s.channels h).requested := hQuiet.popped.trans hQuiet.requested.symm
    have hNot : ¬ (s.channels h).popped.length < (s.channels h).requested.length := by
      rw [hNone]
      exact Nat.lt_irrefl _
    exact ⟨hNone ▸ List.prefix_rfl, fun _ _ _ _ _ hLess => absurd hLess hNot, fun _ _ _ _ _ hLess =>
      absurd hLess hNot,
      fun _ => hNone⟩

theorem no_request_lost {channels : HpuId → Channel} {s' : Startup} {as : List StartupAction}
    (hUnused : ∀ h, Unused (channels h)) (hAlong : Trace.Along startupStep ReadFirst ⟨.start, channels⟩ as)
    (hRun : Trace.run startupStep ⟨.start, channels⟩ as = some s') (h : HpuId) : NotLost s' h := by
  have hStart : StartupInv ⟨.start, channels⟩ := by
    refine ⟨Nat.zero_le _, fun h => (channelInv_quiet rfl).mpr ⟨hUnused h, ?_, ?_⟩⟩
    · exact fun hMapped => absurd rfl hMapped
    · exact fun hMapped => absurd rfl hMapped
  exact (Trace.along_invariant StartupInv (fun _ _ _ => StartupInv.step) hStart hAlong hRun).notLost h

theorem unused_zeroChannel : Unused zeroChannel :=
  ⟨by decide, by decide +kernel, rfl, rfl, rfl, rfl, rfl⟩

def hpuZero : HpuId := ⟨0, Nat.zero_lt_succ 15⟩

def firstRequest : List StartupAction := [.channel hpuZero (.request 5), .channel hpuZero .deliver]

/-- The request comes when the flag of HPU 0 has been read, but not those of all HPUs. -/
theorem no_request_lost_afterRead :
    ∃ s', Trace.run startupStep ⟨.start, fun _ => zeroChannel⟩ (List.replicate 6 .init ++ firstRequest) =
      some s' ∧
      (s'.channels hpuZero).requested = [⟨1, 5, 0⟩] ∧ NotLost s' hpuZero := by
  have hRequested : (Trace.run startupStep ⟨.start, fun _ => zeroChannel⟩
    (List.replicate 6 .init ++ firstRequest)).map
      (fun s => (s.channels hpuZero).requested) = some [⟨1, 5, 0⟩] := by decide +kernel
  obtain ⟨s', hRun, hEq⟩ := Option.map_eq_some_iff.mp hRequested
  exact ⟨s', hRun, hEq, no_request_lost (fun _ => unused_zeroChannel) (by decide +kernel) hRun hpuZero⟩

/-- The request comes right after the matching engine was turned on. When fpspin_init has returned, it is in the page
and fpspin_pop_req returns NULL. -/
theorem request_lost :
    ∃ s', Trace.run startupStep ⟨.start, fun _ => zeroChannel⟩
        (List.replicate 3 .init ++ firstRequest ++ List.replicate 17 .init) = some s' ∧
      s'.stage = .reading coreCount ∧ (s'.channels hpuZero).requested = [⟨1, 5, 0⟩] ∧
      (s'.channels hpuZero).page = Flag.data ⟨1, 5, 0⟩ ∧ fpspinPopReq (s'.channels hpuZero) = none ∧
      ¬ NotLost s' hpuZero := by
  have hState : (Trace.run startupStep ⟨.start, fun _ => zeroChannel⟩
      (List.replicate 3 .init ++ firstRequest ++ List.replicate 17 .init)).map
      (fun s => (s.stage, s.channels hpuZero)) = some (.reading coreCount,
        ⟨1, .polling ⟨1, 5, 0⟩ none none, Flag.data ⟨1, 5, 0⟩, 1, false, 0, 0, none, [⟨1, 5, 0⟩], [], [],
          []⟩) := by
    decide +kernel
  obtain ⟨s', hRun, hEq⟩ := Option.map_eq_some_iff.mp hState
  obtain ⟨hStage, hChannel⟩ := Prod.mk.inj hEq
  have hNull : fpspinPopReq (s'.channels hpuZero) = none := by
    rw [hChannel]
    exact fpspinPopReq_none (congrArg Flag.dmaId (Flag.ofData_data ⟨1, 5, 0⟩))
  refine ⟨s', hRun, hStage, by rw [hChannel], by rw [hChannel], hNull, fun hNotLost => ?_⟩
  have hNext := hNotLost.next hStage ⟨1, 5, 0⟩ none none (by rw [hChannel]) (by rw [hChannel]; exact Nat.one_pos)
  exact Option.some_ne_none _ (hNext.2.symm.trans hNull)

end FPsPIN.HostReq
