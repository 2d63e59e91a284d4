import FPsPIN.PktMatch.Stream

/-!
# The match engine delivers

A cycle in which the engine gets what its phase waits for brings the current
frame closer to its end: it takes a beat, hands one over or moves to a later
phase. In any other cycle nothing moves but the age of an input FIFO. With
outputs that are ready again and again every accepted frame therefore leaves,
and so does its metadata word.
-/

namespace FPsPIN.PktMatch

open LatencyFifo Run

variable {p : Params}

/-- The phases still ahead of the current frame before its beats go out. -/
def Phase.rank : Phase → Nat
  | .metadata => 5
  | .idle | .recv | .recvWait => 4
  | .recvLast => 2
  | .matching => 1
  | .send | .sendWait | .sendLast | .passthrough => 0

/-- The phase in which the engine waits on. -/
def Phase.settle : Phase → Phase
  | .recv => .recvWait
  | .send => .sendWait
  | phase => phase

theorem Phase.settle_settle (phase : Phase) : phase.settle.settle = phase.settle := by
  cases phase <;> rfl

theorem Phase.rank_settle (phase : Phase) : phase.settle.rank = phase.rank := by
  cases phase <;> rfl

/-- The phase gets what it waits for. -/
def enabled (s : State p) (i : Input p) : Bool :=
  match s.stateQ.settle with
  | .idle | .recv | .recvWait => (buffered s i).isSome
  | .recvLast | .matching => true
  | .send | .sendWait | .sendLast => sendTready s i
  | .passthrough => sendTready s i && (buffered s i).isSome
  | .metadata => i.metaReady

section Frames

theorem IsFrame.not_prefix_of_unfinished {frame beats : List (Beat p)} (hFrame : IsFrame frame)
    (hOpen : Unfinished beats) :
    ¬ frame <+: beats := by
  intro hPrefix
  obtain ⟨body, last, rfl, _, hTlast⟩ := hFrame
  have hMem : last ∈ beats := hPrefix.subset (List.mem_append_right _ (List.mem_singleton_self last))
  exact absurd (hTlast.symm.trans (hOpen last hMem)) (by decide)

theorem exists_frame {beats : List (Beat p)} (h : ∃ b ∈ beats, b.tlast = true) :
    ∃ frame, IsFrame frame ∧ frame <+: beats := by
  induction beats with
  | nil =>
    obtain ⟨b, hb, _⟩ := h
    cases hb
  | cons b beats ih =>
    cases hTlast : b.tlast with
    | true => exact ⟨[b], ⟨[], b, rfl, fun x hx => absurd hx List.not_mem_nil, hTlast⟩, beats, rfl⟩
    | false =>
      obtain ⟨x, hx, hLast⟩ := h
      have hMem : x ∈ beats := by
        rcases List.mem_cons.mp hx with rfl | hx
        · exact absurd (hLast.symm.trans hTlast) (by decide)
        · exact hx
      obtain ⟨_, ⟨body, last, rfl, hBody, hEnd⟩, rest, rfl⟩ := ih ⟨x, hMem, hLast⟩
      refine ⟨b :: (body ++ [last]), ⟨b :: body, last, rfl, ?_, hEnd⟩, rest, rfl⟩
      intro y hy
      rcases List.mem_cons.mp hy with rfl | hy
      · exact hTlast
      · exact hBody y hy

theorem IsFrame.countP_tlast {frame : List (Beat p)} (h : IsFrame frame) : frame.countP (fun b => b.tlast) = 1 := by
  obtain ⟨body, last, rfl, hBody, hTlast⟩ := h
  have hNone : body.countP (fun b => b.tlast) = 0 :=
    List.countP_eq_zero.mpr (fun b hb => by rw [hBody b hb]; exact Bool.false_ne_true)
  rw [List.countP_append, hNone, Nat.zero_add, List.countP_singleton, hTlast, if_pos rfl]

theorem countP_flatMap_beats {frames : List (Routed p)} (h : ∀ f ∈ frames, IsFrame f.beats) :
    (frames.flatMap Routed.beats).countP (fun b => b.tlast) = frames.length := by
  induction frames with
  | nil => rfl
  | cons f frames ih =>
    rw [List.flatMap_cons, List.countP_append, (h f List.mem_cons_self).countP_tlast,
      ih (fun f' hf' => h f' (List.mem_cons_of_mem f hf')), List.length_cons, Nat.add_comm]

theorem IsFrame.dropLast {frame : List (Beat p)} (h : IsFrame frame) : Unfinished frame.dropLast := by
  obtain ⟨body, last, rfl, hBody, _⟩ := h
  rw [List.dropLast_concat]
  exact hBody

theorem IsFrame.eq_of_prefix_of {frame frame' beats : List (Beat p)} (hFrame : IsFrame frame) (hFrame' : IsFrame frame')
    (h : frame <+: beats) (h' : frame' <+: beats) : frame = frame' := by
  have hLonger : ∀ {f g : List (Beat p)}, IsFrame f → IsFrame g → f <+: beats → g <+: beats →
      g.length ≤ f.length :=
    fun {f g} hf hg hfb hgb => by
      by_contra hLt
      have hLe : f.length ≤ g.dropLast.length := by
        rw [List.length_dropLast]
        omega
      have hDrop : g.dropLast <+: g := List.dropLast_prefix g
      exact hf.not_prefix_of_unfinished hg.dropLast
        (List.prefix_of_prefix_length_le hfb (hDrop.trans hgb) hLe)
  have hLe := hLonger hFrame' hFrame h' h
  exact (List.prefix_of_prefix_length_le h h' hLe).eq_of_length_le (hLonger hFrame hFrame' h h')

theorem frames_prefix_of {frames frames' : List (List (Beat p))} {beats : List (Beat p)}
    (hFrames : ∀ f ∈ frames, IsFrame f) (hFrames' : ∀ f ∈ frames', IsFrame f) (hOpen : Unfinished beats)
    (h : frames.flatten <+: frames'.flatten ++ beats) : frames <+: frames' := by
  induction frames generalizing frames' with
  | nil => exact List.nil_prefix
  | cons f frames ih =>
    have hFrame := hFrames f List.mem_cons_self
    rw [List.flatten_cons] at h
    cases frames' with
    | nil => exact absurd ((List.prefix_append _ _).trans h) (hFrame.not_prefix_of_unfinished hOpen)
    | cons f' frames' =>
      rw [List.flatten_cons, List.append_assoc] at h
      have hSame : f = f' := hFrame.eq_of_prefix_of (hFrames' f' List.mem_cons_self)
        ((List.prefix_append _ _).trans h) (List.prefix_append _ _)
      subst hSame
      rw [List.prefix_append_right_inj] at h
      exact (List.prefix_cons_inj f).mpr (ih (fun g hg => hFrames g (List.mem_cons_of_mem f hg))
        (fun g hg => hFrames' g (List.mem_cons_of_mem f hg)) h)

theorem Tracks.unfinished_dropLast {s : State p} {done : List (Routed p)} {cur : List (Beat p)} {out : Nat}
    (h : Tracks s done cur out) : Unfinished cur.dropLast := by
  cases h with
  | idle _ hFilling | metadata _ hFilling | storing _ hFilling =>
    exact fun b hb => hFilling.unfinished b ((List.dropLast_sublist _).subset hb)
  | stored _ hHeld | matching _ hHeld | sending _ hHeld | sendingLast _ hHeld =>
    rw [List.dropLast_concat]
    exact hHeld.unfinished
  | passing _ hOpen => exact fun b hb => hOpen b ((List.dropLast_sublist _).subset hb)

theorem Tracks.length_le {s : State p} {done : List (Routed p)} {cur frame rest : List (Beat p)} {out : Nat}
    (h : Tracks s done cur out) (hFrame : IsFrame frame) (hPrefix : frame <+: cur ++ rest) :
    cur.length ≤ frame.length := by
  by_contra hLt
  have hDrop : cur.dropLast <+: cur ++ rest :=
    List.dropLast_prefix cur |>.trans (List.prefix_append cur rest)
  have hLe : frame.length ≤ cur.dropLast.length := by
    rw [List.length_dropLast]
    omega
  exact hFrame.not_prefix_of_unfinished h.unfinished_dropLast (List.prefix_of_prefix_length_le hPrefix hDrop hLe)

end Frames

section Step

variable {s : State p} {i : Input p} {done : List (Routed p)} {cur : List (Beat p)} {out : Nat}

theorem received_of_ready (h : s.bufferedTready = true) : received s i = buffered s i := by
  rw [received, h, if_pos rfl]

/-- The engine takes or hands over a beat and does not fall back, or comes to a later phase. -/
def Advances (s : State p) (i : Input p) : Prop :=
  (stateD s i).rank < s.stateQ.rank ∨
    (stateD s i).rank ≤ s.stateQ.rank ∧ ((consumed s i).isSome = true ∨ (sent s i).isSome = true)

theorem advances_idle (hPhase : s.stateQ = .idle) (hReady : s.bufferedTready = true)
    (hEnabled : enabled s i = true) : Advances s i := by
  rw [enabled, hPhase] at hEnabled
  obtain ⟨b, hBuffered⟩ := Option.isSome_iff_exists.mp hEnabled
  have hReceived : received s i = some b := (received_of_ready hReady).trans hBuffered
  have hConsumed : consumed s i = some b := (consumed_of_not_pass (by rw [doPass, hPhase]; rfl)).trans hReceived
  refine Or.inr ⟨?_, Or.inl (by rw [hConsumed]; rfl)⟩
  rw [stateD, hPhase, hReceived]
  dsimp only
  split_ifs <;> decide

theorem advances_storing (hPhase : s.stateQ = .recv ∨ s.stateQ = .recvWait) (hReady : s.bufferedTready = true)
    (hEnabled : enabled s i = true) : Advances s i := by
  have hBuffered : (buffered s i).isSome = true := by
    rw [enabled] at hEnabled
    rcases hPhase with hPhase | hPhase <;> rw [hPhase] at hEnabled <;> exact hEnabled
  obtain ⟨b, hBuffered⟩ := Option.isSome_iff_exists.mp hBuffered
  have hReceived : received s i = some b := (received_of_ready hReady).trans hBuffered
  have hPass : doPass s = false := by rcases hPhase with hPhase | hPhase <;> rw [doPass, hPhase] <;> rfl
  have hConsumed : consumed s i = some b := (consumed_of_not_pass hPass).trans hReceived
  refine Or.inr ⟨?_, Or.inl (by rw [hConsumed]; rfl)⟩
  rcases hPhase with hPhase | hPhase <;> rw [stateD, hPhase, hReceived] <;> dsimp only <;> split_ifs <;> decide

theorem advances_sending (hPhase : s.stateQ = .send ∨ s.stateQ = .sendWait) (hValid : s.sendTvalid = true)
    (hEnabled : enabled s i = true) : Advances s i := by
  have hReady : sendTready s i = true := by
    rw [enabled] at hEnabled
    rcases hPhase with hPhase | hPhase <;> rw [hPhase] at hEnabled <;> exact hEnabled
  have hPass : doPass s = false := by rcases hPhase with hPhase | hPhase <;> rw [doPass, hPhase] <;> rfl
  refine Or.inr ⟨?_, Or.inr (by rw [sent_of_valid hPass hValid, hReady]; rfl)⟩
  rcases hPhase with hPhase | hPhase <;> rw [stateD, hPhase, hReady, hValid] <;>
    cases s.lastIdx == s.matcherIdx <;> exact Nat.le_refl _

theorem advances_sendingLast {body : List (Beat p)} {last : Beat p} (hPhase : s.stateQ = .sendLast)
    (hHeld : Held s body last) (hValid : s.sendTvalid = true) (hBeat : sendBeat s = last)
    (hEnabled : enabled s i = true) : frameLeaves s i = true ∨ Advances s i := by
  have hReady : sendTready s i = true := by
    rw [enabled, hPhase] at hEnabled
    exact hEnabled
  have hSent : sent s i = some (s.matchedQ, last) := by
    rw [sent_of_valid (by rw [doPass, hPhase]; rfl) hValid, hReady, hBeat, if_pos rfl]
  cases hTlast : last.tlast with
  | true => exact Or.inl (by rw [frameLeaves, hSent]; exact hTlast)
  | false =>
    have hPass : s.passthroughQ = true := by rw [hHeld.passthroughQ, hTlast]; rfl
    refine Or.inr (Or.inr ⟨?_, Or.inr (by rw [hSent]; rfl)⟩)
    rw [stateD, hPhase, hValid, hReady, hPass]
    exact Nat.le_refl _

theorem advances_passing (hPhase : s.stateQ = .passthrough) (hEnabled : enabled s i = true) :
    frameLeaves s i = true ∨ Advances s i := by
  rw [enabled, hPhase] at hEnabled
  obtain ⟨hReady, hSome⟩ := Bool.and_eq_true_iff.mp hEnabled
  obtain ⟨b, hBuffered⟩ := Option.isSome_iff_exists.mp hSome
  have hSent : sent s i = some (s.matchedQ, b) := by
    rw [sent, sendComb, doPass, hPhase, hReady, hBuffered]
    rfl
  cases hTlast : b.tlast with
  | true => exact Or.inl (by rw [frameLeaves, hSent]; exact hTlast)
  | false =>
    refine Or.inr (Or.inr ⟨?_, Or.inr (by rw [hSent]; rfl)⟩)
    rw [stateD, hPhase, hSent]
    dsimp only
    rw [hTlast, if_neg Bool.false_ne_true]

theorem Tracks.advances (h : Tracks s done cur out) (hEnabled : enabled s i = true) :
    frameLeaves s i = true ∨ Advances s i := by
  cases h with
  | idle hPhase _ hReady => exact Or.inr (advances_idle hPhase hReady hEnabled)
  | storing hPhase _ hReady => exact Or.inr (advances_storing hPhase hReady hEnabled)
  | stored hPhase => exact Or.inr (Or.inl (by rw [stateD, hPhase]; exact Nat.lt_succ_self 1))
  | matching hPhase =>
    refine Or.inr (Or.inl ?_)
    rw [stateD, hPhase]
    dsimp only
    split_ifs <;> decide
  | sending hPhase _ _ _ hValid => exact Or.inr (advances_sending hPhase hValid hEnabled)
  | sendingLast hPhase hHeld _ hValid hBeat => exact advances_sendingLast hPhase hHeld hValid hBeat hEnabled
  | passing hPhase => exact advances_passing hPhase hEnabled
  | metadata hPhase _ _ hMeta =>
    rw [enabled, hPhase] at hEnabled
    refine Or.inr (Or.inl ?_)
    rw [stateD, hPhase, hMeta, show i.metaReady = true from hEnabled]
    exact Nat.lt_succ_self 4

/-- Nothing moves in the cycle. -/
structure Stays (s : State p) (i : Input p) : Prop where
  sent : sent s i = none
  consumed : consumed s i = none
  phase : (step s i).stateQ = s.stateQ.settle
  port : s.stateQ.rank = 0 → (step s i).matchedQ = s.matchedQ

theorem stays_receiving (hPhase : s.stateQ = .idle ∨ s.stateQ = .recv ∨ s.stateQ = .recvWait)
    (hValid : s.sendTvalid = false) (hReady : s.bufferedTready = true) (hEnabled : enabled s i = false) :
    Stays s i := by
  have hBuffered : buffered s i = none := by
    rw [enabled] at hEnabled
    rcases hPhase with hPhase | hPhase | hPhase <;> rw [hPhase] at hEnabled <;>
      exact Option.not_isSome_iff_eq_none.mp (Bool.eq_false_iff.mp hEnabled)
  have hReceived : received s i = none := (received_of_ready hReady).trans hBuffered
  have hPass : doPass s = false := by rcases hPhase with hPhase | hPhase | hPhase <;> rw [doPass, hPhase] <;> rfl
  refine ⟨sent_of_not_valid hPass hValid, (consumed_of_not_pass hPass).trans hReceived, ?_, ?_⟩
  · change stateD s i = _
    rcases hPhase with hPhase | hPhase | hPhase <;> rw [stateD, hPhase, hReceived] <;> rfl
  · intro hRank
    rcases hPhase with hPhase | hPhase | hPhase <;> rw [hPhase] at hRank <;> cases hRank

theorem stays_replaying (hPhase : s.stateQ = .send ∨ s.stateQ = .sendWait ∨ s.stateQ = .sendLast)
    (hValid : s.sendTvalid = true) (hReady : s.bufferedTready = false) (hEnabled : enabled s i = false) :
    Stays s i := by
  have hBusy : sendTready s i = false := by
    rw [enabled] at hEnabled
    rcases hPhase with hPhase | hPhase | hPhase <;> rw [hPhase] at hEnabled <;> exact hEnabled
  have hPass : doPass s = false := by rcases hPhase with hPhase | hPhase | hPhase <;> rw [doPass, hPhase] <;> rfl
  have hD : stateD s i = s.stateQ.settle := by
    rcases hPhase with hPhase | hPhase | hPhase <;> rw [stateD, hPhase, hBusy, Bool.and_false] <;> rfl
  refine ⟨?_, (consumed_of_not_pass hPass).trans (received_of_not_ready hReady), hD, fun _ => ?_⟩
  · rw [sent_of_valid hPass hValid, hBusy, if_neg Bool.false_ne_true]
  · apply matchedQ_of_sending
    rcases hPhase with hPhase | hPhase | hPhase <;> rw [hD, hPhase] <;> decide

theorem stays_passing (hPhase : s.stateQ = .passthrough) (hEnabled : enabled s i = false) : Stays s i := by
  rw [enabled, hPhase] at hEnabled
  have hWait : sendTready s i = false ∨ buffered s i = none := by
    rcases Bool.and_eq_false_iff.mp hEnabled with hBusy | hNone
    · exact Or.inl hBusy
    · exact Or.inr (Option.not_isSome_iff_eq_none.mp (Bool.eq_false_iff.mp hNone))
  have hPass : doPass s = true := by rw [doPass, hPhase]; rfl
  have hSent : sent s i = none := by
    rw [sent, sendComb, hPass, if_pos rfl]
    rcases hWait with hBusy | hNone
    · rw [hBusy, if_neg Bool.false_ne_true]
    · rw [hNone, Option.map_none, ite_self]
  have hD : stateD s i = .passthrough := by rw [stateD, hPhase, hSent]
  refine ⟨hSent, ?_, ?_, fun _ => matchedQ_of_sending (Or.inr (Or.inr (Or.inr hD)))⟩
  · rw [consumed, sendCombTready, hPass, if_pos rfl]
    rcases hWait with hBusy | hNone
    · rw [hBusy, if_neg Bool.false_ne_true]
    · rw [hNone, ite_self]
  · change stateD s i = _
    rw [hD, hPhase]
    rfl

theorem stays_metadata (hPhase : s.stateQ = .metadata) (hValid : s.sendTvalid = false)
    (hReady : s.bufferedTready = false) (hEnabled : enabled s i = false) : Stays s i := by
  rw [enabled, hPhase] at hEnabled
  have hBusy : i.metaReady = false := hEnabled
  have hPass : doPass s = false := by rw [doPass, hPhase]; rfl
  refine ⟨sent_of_not_valid hPass hValid, (consumed_of_not_pass hPass).trans (received_of_not_ready hReady), ?_, ?_⟩
  · change stateD s i = _
    rw [stateD, hPhase, hBusy]
    rfl
  · intro hRank
    rw [hPhase] at hRank
    cases hRank

theorem Tracks.stays (h : Tracks s done cur out) (hEnabled : enabled s i = false) : Stays s i := by
  cases h with
  | idle hPhase hFilling hReady => exact stays_receiving (Or.inl hPhase) hFilling.sendTvalid hReady hEnabled
  | storing hPhase hFilling hReady => exact stays_receiving (Or.inr hPhase) hFilling.sendTvalid hReady hEnabled
  | stored hPhase | matching hPhase =>
    rw [enabled, hPhase] at hEnabled
    cases hEnabled
  | sending hPhase hHeld _ _ hValid =>
    exact stays_replaying (hPhase.imp_right Or.inl) hValid hHeld.bufferedTready hEnabled
  | sendingLast hPhase hHeld _ hValid =>
    exact stays_replaying (Or.inr (Or.inr hPhase)) hValid hHeld.bufferedTready hEnabled
  | passing hPhase => exact stays_passing hPhase hEnabled
  | metadata hPhase hFilling hReady => exact stays_metadata hPhase hFilling.sendTvalid hReady hEnabled

theorem waiting_step (h : frameLeaves s i = false) (g : Track p) :
    g.cur ++ queued s <+: (g.step s i).cur ++ queued (step s i) := by
  refine ⟨if rxTready s i then i.rx.toList else [], ?_⟩
  rw [Track.step, h, if_neg Bool.false_ne_true, Track.taken, List.append_assoc, List.append_assoc, queued_step]

theorem Stays.track (h : Stays s i) (g : Track p) : g.step s i = g := by
  rw [Track.step_of_not_sent g h.sent, h.consumed, Option.toList, List.append_nil]

theorem Stays.queued (h : Stays s i) : queued s <+: queued (step s i) := by
  have hWords := queued_step s i
  rw [h.consumed, Option.toList, List.nil_append] at hWords
  exact ⟨_, hWords.symm⟩

theorem fifoDepth_ne_zero (h : queued s ≠ []) : p.fifoDepth ≠ 0 := fun hZero => h (if_pos hZero)

theorem Stays.waited (h : Stays s i) (hDepth : p.fifoDepth ≠ 0) {n : Nat} (hWaited : Waited n s.fifo) :
    Waited (n + 1) (step s i).fifo := by
  apply hWaited.step
  have hConsumed := h.consumed
  rw [PktMatch.consumed, buffered, if_neg hDepth] at hConsumed
  cases hReady : sendCombTready s i with
  | false => rfl
  | true =>
    rw [hReady, if_pos rfl] at hConsumed
    rw [hConsumed]
    rfl

end Step

section Runs

variable {inputs : Nat → Input p}

/-- Both outputs and the metadata port are ready again and again. -/
structure Fair (inputs : Nat → Input p) : Prop where
  nic : ∀ t, ∃ u, t ≤ u ∧ (inputs u).nicReady = true
  pspin : ∀ t, ∃ u, t ≤ u ∧ (inputs u).pspinReady = true
  metadata : ∀ t, ∃ u, t ≤ u ∧ (inputs u).metaReady = true

theorem Fair.port (h : Fair inputs) (t : Nat) (port : Bool) :
    ∃ u, t ≤ u ∧ (if port then (inputs u).pspinReady else (inputs u).nicReady) = true := by
  cases port with
  | false => exact h.nic t
  | true => exact h.pspin t

variable (hSound : ∀ t, Sound (runAt inputs t) (inputs t))
include hSound

theorem run_stays {t k : Nat} (h : ∀ v, t ≤ v → v < t + k → enabled (runAt inputs v) (inputs v) = false) :
    trackAt inputs (t + k) = trackAt inputs t ∧
      (runAt inputs (t + k)).stateQ.settle = (runAt inputs t).stateQ.settle ∧
      ((runAt inputs t).stateQ.rank = 0 → (runAt inputs (t + k)).matchedQ = (runAt inputs t).matchedQ) ∧
      queued (runAt inputs t) <+: queued (runAt inputs (t + k)) ∧
      (queued (runAt inputs t) ≠ [] → Waited k (runAt inputs (t + k)).fifo) := by
  induction k with
  | zero =>
    refine ⟨rfl, rfl, fun _ => rfl, List.prefix_refl _, fun hSome => waited_zero ?_⟩
    rwa [queued, if_neg (fifoDepth_ne_zero hSome)] at hSome
  | succ k ih =>
    obtain ⟨hTrack, hPhase, hPort, hWords, hWaited⟩ := ih (fun v hv hLt => h v hv (by omega))
    have hStays := (run_tracks hSound (t + k)).stays (h (t + k) (by omega) (by omega))
    refine ⟨(hStays.track _).trans hTrack, ?_, fun hRank => (hStays.port ?_).trans (hPort hRank),
      hWords.trans hStays.queued, fun hSome => hStays.waited (fifoDepth_ne_zero hSome) (hWaited hSome)⟩
    · exact (congrArg Phase.settle hStays.phase).trans ((Phase.settle_settle _).trans hPhase)
    · rw [← Phase.rank_settle, hPhase, Phase.rank_settle, hRank]

theorem run_enabled (hFair : Fair inputs) {t : Nat}
    (hMore : (runAt inputs t).stateQ ≠ .metadata → Unfinished (trackAt inputs t).cur →
      queued (runAt inputs t) ≠ []) :
    ∃ u, t ≤ u ∧ enabled (runAt inputs u) (inputs u) = true := by
  by_contra hNever
  have hIdle : ∀ u, t ≤ u → enabled (runAt inputs u) (inputs u) = false := fun u hu =>
    Bool.eq_false_iff.mpr (fun h => hNever ⟨u, hu, h⟩)
  have hPhase : ∀ u, t ≤ u → (runAt inputs u).stateQ.settle = (runAt inputs t).stateQ.settle := fun u hu => by
    obtain ⟨k, rfl⟩ := Nat.exists_eq_add_of_le hu
    exact (run_stays hSound (fun v hv _ => hIdle v hv)).2.1
  have hVisible : queued (runAt inputs t) ≠ [] → ∀ u, t + p.latency ≤ u →
      (buffered (runAt inputs u) (inputs u)).isSome = true := fun hSome u hu => by
    obtain ⟨k, rfl⟩ := Nat.exists_eq_add_of_le (Nat.le_of_add_right_le hu)
    obtain ⟨_, _, _, _, hWaited⟩ := run_stays hSound (t := t) (k := k) (fun v hv _ => hIdle v hv)
    rw [buffered, if_neg (fifoDepth_ne_zero hSome)]
    exact ((hWaited hSome).mono (by omega)).output_isSome
  have hReady : (runAt inputs t).stateQ.rank = 0 → ∀ n, t ≤ n →
      ∃ u, n ≤ u ∧ sendTready (runAt inputs u) (inputs u) = true := fun hRank n hn => by
    obtain ⟨u, hu, hPort⟩ := hFair.port n (runAt inputs t).matchedQ
    obtain ⟨k, rfl⟩ := Nat.exists_eq_add_of_le (hn.trans hu)
    obtain ⟨_, _, hSame, _, _⟩ := run_stays hSound (t := t) (k := k) (fun v hv _ => hIdle v hv)
    exact ⟨t + k, hu, by rw [sendTready, hSame hRank]; exact hPort⟩
  have hTracks := run_tracks hSound t
  generalize hDone : (trackAt inputs t).done = done at hTracks
  generalize hCur : (trackAt inputs t).cur = cur at hTracks hMore
  generalize hOut : (trackAt inputs t).out = out at hTracks
  cases hTracks with
  | idle hNow hFilling =>
    have hEnabled := hIdle (t + p.latency) (by omega)
    rw [enabled, hPhase _ (by omega), hNow] at hEnabled
    have hSome := hVisible (hMore (by rw [hNow]; decide) hFilling.unfinished) (t + p.latency) (Nat.le_refl _)
    exact absurd (hSome.symm.trans hEnabled) (by decide)
  | storing hNow hFilling =>
    have hEnabled := hIdle (t + p.latency) (by omega)
    have hSome := hVisible (hMore (by rcases hNow with hNow | hNow <;> rw [hNow] <;> decide) hFilling.unfinished)
      (t + p.latency) (Nat.le_refl _)
    rw [enabled, hPhase _ (by omega)] at hEnabled
    rcases hNow with hNow | hNow <;> rw [hNow] at hEnabled <;> exact absurd (hSome.symm.trans hEnabled) (by decide)
  | stored hNow | matching hNow =>
    have hEnabled := hIdle t (Nat.le_refl t)
    rw [enabled, hNow] at hEnabled
    cases hEnabled
  | sending hNow =>
    obtain ⟨u, hu, hPort⟩ := hReady (by rcases hNow with hNow | hNow <;> rw [hNow] <;> rfl) t (Nat.le_refl t)
    have hEnabled := hIdle u hu
    rw [enabled, hPhase u hu] at hEnabled
    rcases hNow with hNow | hNow <;> rw [hNow] at hEnabled <;> exact absurd (hPort.symm.trans hEnabled) (by decide)
  | sendingLast hNow =>
    obtain ⟨u, hu, hPort⟩ := hReady (by rw [hNow]; rfl) t (Nat.le_refl t)
    have hEnabled := hIdle u hu
    rw [enabled, hPhase u hu, hNow] at hEnabled
    exact absurd (hPort.symm.trans hEnabled) (by decide)
  | passing hNow hOpen =>
    obtain ⟨u, hu, hPort⟩ := hReady (by rw [hNow]; rfl) (t + p.latency) (by omega)
    have hSome := hVisible (hMore (by rw [hNow]; decide) hOpen) u hu
    have hEnabled := hIdle u (by omega)
    rw [enabled, hPhase u (by omega), hNow] at hEnabled
    exact absurd ((Bool.and_eq_true_iff.mpr ⟨hPort, hSome⟩).symm.trans hEnabled) (by decide)
  | metadata hNow =>
    obtain ⟨u, hu, hMeta⟩ := hFair.metadata t
    have hEnabled := hIdle u hu
    rw [enabled, hPhase u hu, hNow] at hEnabled
    exact absurd (hMeta.symm.trans hEnabled) (by decide)

theorem run_first_enabled (hFair : Fair inputs) {t : Nat}
    (hMore : (runAt inputs t).stateQ ≠ .metadata → Unfinished (trackAt inputs t).cur →
      queued (runAt inputs t) ≠ []) :
    ∃ u, t ≤ u ∧ enabled (runAt inputs u) (inputs u) = true ∧ trackAt inputs u = trackAt inputs t ∧
      (runAt inputs u).stateQ.settle = (runAt inputs t).stateQ.settle ∧
      queued (runAt inputs t) <+: queued (runAt inputs u) := by
  obtain ⟨u, hu, hEnabled, hBefore⟩ := exists_first (run_enabled hSound hFair hMore)
  obtain ⟨k, rfl⟩ := Nat.exists_eq_add_of_le hu
  obtain ⟨hTrack, hPhase, _, hWords, _⟩ := run_stays hSound (t := t) (k := k)
    (fun w hw hLt => Bool.eq_false_iff.mpr (hBefore w hw hLt))
  exact ⟨t + k, hu, hEnabled, hTrack, hPhase, hWords⟩

/-- The work left before a frame has left. -/
def distance (frame : List (Beat p)) (s : State p) (g : Track p) : Nat :=
  (frame.length - g.cur.length) + (frame.length - g.out) + s.stateQ.rank

omit hSound in
theorem distance_step {frame : List (Beat p)} {s : State p} {i : Input p} {g : Track p}
    (hAdvances : Advances s i) (hStays : frameLeaves s i = false) (hNext : Tracks (step s i) (g.step s i).done
      (g.step s i).cur (g.step s i).out) (hLe : (g.step s i).cur.length ≤ frame.length) :
    distance frame (step s i) (g.step s i) < distance frame s g := by
  have hOut := hNext.out_le
  have hStep : g.step s i = ⟨g.done, g.taken s i, g.out + (sent s i).toList.length⟩ := by
    rw [Track.step, hStays, if_neg Bool.false_ne_true]
  rw [hStep] at hLe hOut ⊢
  simp only [Track.taken, List.length_append] at hLe hOut
  simp only [distance, Track.taken, List.length_append]
  change _ + (stateD s i).rank < _
  rcases hAdvances with hRank | ⟨hRank, hMoved⟩
  · omega
  · have hCount : 1 ≤ (consumed s i).toList.length + (sent s i).toList.length := by
      rcases hMoved with hSome | hSome
      · obtain ⟨b, hb⟩ := Option.isSome_iff_exists.mp hSome
        rw [hb]
        exact Nat.le_add_right 1 _
      · obtain ⟨x, hx⟩ := Option.isSome_iff_exists.mp hSome
        rw [hx]
        exact Nat.le_add_left 1 _
    omega

theorem run_frame_leaves (hFair : Fair inputs) {frame : List (Beat p)} (hFrame : IsFrame frame) {t : Nat}
    (hPrefix : frame <+: (trackAt inputs t).cur ++ queued (runAt inputs t)) :
    ∃ u, t ≤ u ∧ (trackAt inputs t).done.length < (trackAt inputs u).done.length := by
  refine reached_of_closer (fun v => (trackAt inputs v).done.length = (trackAt inputs t).done.length ∧
    frame <+: (trackAt inputs v).cur ++ queued (runAt inputs v))
    (fun v => distance frame (runAt inputs v) (trackAt inputs v)) ?_ ⟨rfl, hPrefix⟩
  rintro v ⟨hDone, hPrefix⟩
  have hMore : Unfinished (trackAt inputs v).cur → queued (runAt inputs v) ≠ [] := fun hOpen hNil => by
    rw [hNil, List.append_nil] at hPrefix
    exact hFrame.not_prefix_of_unfinished hOpen hPrefix
  obtain ⟨u, hu, hEnabled, hTrack, hPhase, hWords⟩ := run_first_enabled hSound hFair (fun _ => hMore)
  have hPrefix' : frame <+: (trackAt inputs u).cur ++ queued (runAt inputs u) := by
    rw [hTrack]
    exact hPrefix.trans (List.prefix_append_right_inj _ |>.mpr hWords)
  have hSame : distance frame (runAt inputs u) (trackAt inputs u) =
      distance frame (runAt inputs v) (trackAt inputs v) := by
    rw [distance, distance, hTrack, ← Phase.rank_settle, hPhase, Phase.rank_settle]
  refine ⟨u + 1, Nat.le_succ_of_le hu, ?_⟩
  cases hLeaves : frameLeaves (runAt inputs u) (inputs u) with
  | true =>
    refine Or.inl ?_
    rw [trackAt, Track.step, hLeaves, if_pos rfl, List.length_append, hTrack, hDone]
    exact Nat.lt_succ_self _
  | false =>
    have hNext := run_tracks hSound (u + 1)
    have hPrefixNext : frame <+: (trackAt inputs (u + 1)).cur ++ queued (runAt inputs (u + 1)) :=
      hPrefix'.trans (waiting_step hLeaves _)
    refine Or.inr ⟨⟨?_, hPrefixNext⟩, ?_⟩
    · rw [trackAt, Track.step, hLeaves, if_neg Bool.false_ne_true, hTrack, hDone]
    · rw [← hSame]
      have hAdvances := ((run_tracks hSound u).advances hEnabled).resolve_left (by rw [hLeaves]; decide)
      exact distance_step hAdvances hLeaves hNext (hNext.length_le hFrame hPrefixNext)

end Runs

end FPsPIN.PktMatch
