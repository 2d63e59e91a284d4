import FPsPIN.PktMatch.Progress

/-!
# Stream preservation of pspin_pkt_match

In a run whose cycles are sound every accepted frame leaves unmodified, in
order and wholly on one port, with one metadata word if the port is PsPIN.
The cycles are sound when the matcher has at least two beats and its index
covers it, as long as no frame to PsPIN has 2^32 bytes. With a matcher of one
beat the engine takes a frame of one beat for the start of a longer one: the
frame loses its tlast and runs into the next frame.
-/

namespace FPsPIN.PktMatch

open LatencyFifo Run

variable {p : Params} {inputs : Nat → Input p}

/-- The frames that have left before cycle t are those accepted first, each sent as it is on the port of its
verdict, followed at most by beats of a frame under way. The metadata words handed over and on offer are those of
the frames to PsPIN. -/
structure Delivered (inputs : Nat → Input p) (t : Nat) (frames : List (Routed p)) : Prop where
  whole : ∀ f ∈ frames, IsFrame f.beats
  sent : ∃ rest begun port, acceptedOn inputs t = frames.flatMap Routed.beats ++ rest ∧ begun <+: rest ∧
    Unfinished begun ∧
    sentOn inputs t = frames.flatMap (fun f => f.beats.map (Prod.mk f.port)) ++ begun.map (Prod.mk port)
  metadata : metaOn inputs t ++ offered (runAt inputs t) = (frames.filter Routed.port).map Routed.metaWord

theorem Tracks.unfinished_take {s : State p} {done : List (Routed p)} {cur : List (Beat p)} {out : Nat}
    (h : Tracks s done cur out) : Unfinished (cur.take out) := by
  cases h with
  | idle | storing | stored | matching | metadata => exact fun b hb => absurd hb (by simp)
  | sending _ hHeld _ hOut =>
    rw [List.take_append_of_le_length hOut.le]
    exact fun b hb => hHeld.unfinished b (List.mem_of_mem_take hb)
  | sendingLast _ hHeld =>
    rw [List.take_left]
    exact hHeld.unfinished
  | passing _ hOpen => exact fun b hb => hOpen b (List.mem_of_mem_take hb)

section Runs

variable (hSound : ∀ t, Sound (runAt inputs t) (inputs t))
include hSound

theorem run_delivered (t : Nat) : Delivered inputs t (trackAt inputs t).done where
  whole := run_frames hSound t
  sent := by
    refine ⟨(trackAt inputs t).cur ++ queued (runAt inputs t),
      (trackAt inputs t).cur.take (trackAt inputs t).out, (runAt inputs t).matchedQ, ?_, ?_,
      (run_tracks hSound t).unfinished_take, run_sent hSound t⟩
    · rw [run_accepted, List.append_assoc]
    · exact List.take_prefix _ _ |>.trans (List.prefix_append _ _)
  metadata := run_metaOn hSound t

theorem run_all_leave (hFair : Fair inputs) (t : Nat) :
    ∃ u, t ≤ u ∧ (acceptedOn inputs t).countP (fun b => b.tlast) ≤ (trackAt inputs u).done.length := by
  refine reached_of_closer (fun u => t ≤ u)
    (fun u => (acceptedOn inputs t).countP (fun b => b.tlast) - (trackAt inputs u).done.length) ?_ (Nat.le_refl t)
  intro v hv
  by_cases hDone : (acceptedOn inputs t).countP (fun b => b.tlast) ≤ (trackAt inputs v).done.length
  · exact ⟨v, Nat.le_refl v, Or.inl hDone⟩
  have hAccepted : (acceptedOn inputs t).countP (fun b => b.tlast) ≤
      (acceptedOn inputs v).countP (fun b => b.tlast) :=
    (window_mono _ hv).sublist.countP_le
  rw [run_accepted (t := v), List.append_assoc, List.countP_append,
    countP_flatMap_beats (run_frames hSound v)] at hAccepted
  obtain ⟨b, hb, hTlast⟩ := List.countP_pos_iff.mp
    (show 0 < ((trackAt inputs v).cur ++ queued (runAt inputs v)).countP (fun b => b.tlast) by omega)
  obtain ⟨frame, hFrame, hPrefix⟩ := exists_frame ⟨b, hb, hTlast⟩
  obtain ⟨u, hu, hMore⟩ := run_frame_leaves hSound hFair hFrame hPrefix
  exact ⟨u, hu, Or.inr ⟨hv.trans hu, by omega⟩⟩

theorem run_meta_leaves (hFair : Fair inputs) (t : Nat) :
    ∃ u, t ≤ u ∧ (trackAt inputs u).done = (trackAt inputs t).done ∧ offered (runAt inputs u) = [] := by
  cases hValid : (runAt inputs t).packetMetaValid with
  | false => exact ⟨t, Nat.le_refl t, rfl, by rw [offered, hValid, if_neg Bool.false_ne_true]⟩
  | true =>
    obtain ⟨_, _, _, _, _, hPhase⟩ := (run_tracks hSound t).offered_eq hValid
    obtain ⟨u, hu, hEnabled, hTrack, hSettle, _⟩ := run_first_enabled hSound hFair (fun h => absurd hPhase h)
    have hPhase' : (runAt inputs u).stateQ = .metadata := by
      rw [hPhase] at hSettle
      cases hNow : (runAt inputs u).stateQ <;> rw [hNow] at hSettle <;> cases hSettle
    obtain ⟨hMeta, hSent⟩ := (run_tracks hSound u).of_metadata (i := inputs u) hPhase'
    have hGone : (runAt inputs (u + 1)).packetMetaValid = false := by
      rw [enabled, hPhase'] at hEnabled
      change packetMetaValidD (runAt inputs u) (inputs u) = false
      rw [packetMetaValidD, hPhase', hMeta, show (inputs u).metaReady = true from hEnabled]
      rfl
    refine ⟨u + 1, Nat.le_succ_of_le hu, ?_, by rw [offered, hGone, if_neg Bool.false_ne_true]⟩
    rw [trackAt, Track.step_of_not_sent _ hSent, hTrack]

end Runs

/-- With a matcher of at least two beats that its index covers, only the size of frames to PsPIN matters. -/
theorem Tracks.sound {s : State p} {i : Input p} {done : List (Routed p)} {cur : List (Beat p)} {out : Nat}
    (h : Tracks s done cur out) (hBeats : p.matcherBeats ≠ 1) (hIndex : p.matcherBeats ≤ 2 ^ p.matcherIdxWidth)
    (hSize : s.matchedQ = true → (sent s i).isSome = true → s.packetMetaSize.toNat + p.beatSize < 2 ^ 32) :
    Sound s i where
  oneBeat _ _ _ _ := hBeats
  index b hReceived _ hEnd := by
    have hFilled : ∀ {cur}, Filling s cur → s.matcherIdx.toNat + 1 = p.matcherBeats := fun hFilling => by
      have hRoom := hFilling.room
      rw [← hFilling.matcherIdx] at hRoom
      omega
    have hBusy : s.bufferedTready ≠ false := fun hBusy => by
      rw [received_of_not_ready hBusy] at hReceived
      cases hReceived
    cases h with
    | idle _ hFilling | storing _ hFilling | metadata _ hFilling => exact hFilled hFilling
    | stored _ hHeld | matching _ hHeld | sending _ hHeld | sendingLast _ hHeld =>
      exact absurd hHeld.bufferedTready hBusy
    | passing _ _ _ _ hReady => exact absurd hReady hBusy
  size := hSize

theorem run_sound_of_covered (hBeats : p.matcherBeats ≠ 1) (hIndex : p.matcherBeats ≤ 2 ^ p.matcherIdxWidth)
    (hSize : ∀ t, (runAt inputs t).matchedQ = true → (sent (runAt inputs t) (inputs t)).isSome = true →
      (runAt inputs t).packetMetaSize.toNat + p.beatSize < 2 ^ 32) (t : Nat) :
    Sound (runAt inputs t) (inputs t) := by
  have hTracks : Tracks (runAt inputs t) (trackAt inputs t).done (trackAt inputs t).cur (trackAt inputs t).out := by
    induction t with
    | zero => exact tracks_init _
    | succ t ih => exact (tracks_step ih (ih.sound hBeats hIndex (hSize t))).1
  exact hTracks.sound hBeats hIndex (hSize t)

/-- An idle engine with nothing in the input FIFO or, where there is none, at the input. -/
structure Quiet (s : State p) (i : Input p) : Prop where
  phase : s.stateQ = .idle
  sendTvalid : s.sendTvalid = false
  packetMetaValid : s.packetMetaValid = false
  fifo : s.fifo = []
  rx : p.fifoDepth = 0 → i.rx = none

theorem Quiet.sent {s : State p} {i : Input p} (h : Quiet s i) : sent s i = none :=
  sent_of_not_valid (by rw [doPass, h.phase]; rfl) h.sendTvalid

theorem Quiet.stateD {s : State p} {i : Input p} (h : Quiet s i) : stateD s i = .idle := by
  have hBuffered : buffered s i = none := by
    rw [buffered, h.fifo]
    split
    · next hDepth => exact h.rx hDepth
    · rfl
  have hReceived : received s i = none := by rw [received, hBuffered, ite_self]
  rw [PktMatch.stateD, h.phase, hReceived]

theorem Quiet.step {s : State p} {i i' : Input p} (h : Quiet s i) (hRx : i.rx = none) (hRx' : i'.rx = none) :
    Quiet (step s i) i' := by
  have hD := h.stateD
  refine ⟨hD, ?_, ?_, ?_, fun _ => hRx'⟩
  · change (outputs s i).sendTvalid = false
    rw [outputs, hD]
  · change packetMetaValidD s i = false
    rw [packetMetaValidD, h.phase]
    rfl
  · change LatencyFifo.step _ _ _ _ _ = []
    rw [h.fifo, hRx, LatencyFifo.step]
    cases sendCombTready s i <;> simp [output]

theorem run_quiet {t : Nat} (h : Quiet (runAt inputs t) (inputs t))
    (hRx : ∀ u, t ≤ u → (inputs u).rx = none) {u : Nat}
    (hu : t ≤ u) : Quiet (runAt inputs u) (inputs u) := by
  obtain ⟨k, rfl⟩ := Nat.exists_eq_add_of_le hu
  induction k with
  | zero => exact h
  | succ k ih =>
    exact (ih (Nat.le_add_right t k)).step (hRx (t + k) (Nat.le_add_right t k))
      (hRx (t + (k + 1)) (Nat.le_add_right t _))

/-- Sound cycles preserve the stream at every cycle, and if the outputs are ready again and again every accepted
frame leaves with its metadata word. -/
theorem stream_preserved (inputs : Nat → Input p) (hSound : ∀ t, Sound (runAt inputs t) (inputs t)) :
    (∀ t, ∃ frames, Delivered inputs t frames) ∧
      (Fair inputs → ∀ t, ∃ u frames, Delivered inputs u frames ∧
        (acceptedOn inputs t).countP (fun b => b.tlast) ≤ frames.length ∧
        metaOn inputs u = (frames.filter Routed.port).map Routed.metaWord) := by
  refine ⟨fun t => ⟨_, run_delivered hSound t⟩, fun hFair t => ?_⟩
  obtain ⟨u, hu, hAll⟩ := run_all_leave hSound hFair t
  obtain ⟨v, hv, hDone, hOffered⟩ := run_meta_leaves hSound hFair u
  have hDelivered := run_delivered hSound v
  refine ⟨v, _, hDelivered, ?_, ?_⟩
  · rw [hDone]
    exact hAll
  · rw [← hDelivered.metadata, hOffered, List.append_nil]

theorem Delivered.sent_prefix_accepted {t : Nat} {frames : List (Routed p)} (h : Delivered inputs t frames) :
    (sentOn inputs t).map Prod.snd <+: acceptedOn inputs t := by
  obtain ⟨rest, begun, port, hAccepted, hBegun, _, hSent⟩ := h.sent
  have hBeats : (sentOn inputs t).map Prod.snd = frames.flatMap Routed.beats ++ begun := by
    rw [hSent, List.map_append, List.map_flatMap, List.map_map]
    simp [Function.comp_def]
  rw [hBeats, hAccepted]
  exact (List.prefix_append_right_inj _).mpr hBegun

section Beats

/-- The deployed widths for a matcher of the given length in bytes and an input FIFO of the given depth. -/
def widths (matcherLen fifoDepth : Nat) (hLen : 48 ≤ matcherLen) : Params where
  matcherLen := matcherLen
  dataWidth := 512
  keepWidth := 64
  idWidth := 1
  destWidth := 8
  userWidth := 97
  tagWidth := 32
  msgIdWidth := 16
  fifoDepth := fifoDepth
  latency := 3
  dataWidth_pos := by decide
  matcherLen_ge := hLen
  tagWidth_ge := by decide

/-- The deployed matcher has two beats. With UMATCH_BUF_FRAMES = 0 there is no input FIFO. -/
abbrev deployed : Params := widths 66 0 (by decide)

/-- The shortest matcher has one beat; here it is behind a FIFO. -/
abbrev shortest : Params := widths 48 16 (by decide)

def word {matcherLen fifoDepth : Nat} {hLen : 48 ≤ matcherLen} (tdata : BitVec 512) (tlast : Bool) :
    Beat (widths matcherLen fifoDepth hLen) :=
  ⟨⟨BitVec.allOnes 64, 0, 0, 0⟩, tdata, tlast⟩

def twoBeats (t : Nat) : Input deployed where
  rx := match t with
    | 0 => some (word 5 false)
    | 1 => some (word 7 true)
    | _ => none
  nicReady := true
  pspinReady := true
  conf := ⟨true, fun _ => false, fun _ _ => ⟨0, 0, 0, 0⟩⟩
  metaReady := true

theorem twoBeats_sound (t : Nat) : Sound (runAt twoBeats t) (twoBeats t) := by
  apply run_sound_of_covered (by decide +kernel) (by decide +kernel)
  have hQuiet : Quiet (runAt twoBeats 11) (twoBeats 11) :=
    ⟨by decide +kernel, by decide +kernel, by decide +kernel, by decide +kernel, fun _ => rfl⟩
  have hEarly : ∀ u < 11, (runAt twoBeats u).packetMetaSize.toNat + deployed.beatSize < 2 ^ 32 := by decide +kernel
  have hRx : ∀ u, 11 ≤ u → (twoBeats u).rx = none := fun u hu => by
    obtain ⟨k, rfl⟩ := Nat.exists_eq_add_of_le' hu
    rfl
  intro t _ hSent
  by_cases ht : t < 11
  · exact hEarly t ht
  · rw [(run_quiet hQuiet hRx (Nat.le_of_not_lt ht)).sent] at hSent
    cases hSent

theorem stream_preserved_twoBeats :
    (sentOn twoBeats 11).length = 2 ∧ (∀ t, ∃ frames, Delivered twoBeats t frames) ∧
      ∀ t, ∃ u frames, Delivered twoBeats u frames ∧
        (acceptedOn twoBeats t).countP (fun b => b.tlast) ≤ frames.length ∧
        metaOn twoBeats u = (frames.filter Routed.port).map Routed.metaWord :=
  ⟨by decide +kernel, (stream_preserved twoBeats twoBeats_sound).1,
    (stream_preserved twoBeats twoBeats_sound).2
      ⟨fun t => ⟨t, Nat.le_refl t, rfl⟩, fun t => ⟨t, Nat.le_refl t, rfl⟩,
       fun t => ⟨t, Nat.le_refl t, rfl⟩⟩⟩

def oneBeatFrames (t : Nat) : Input shortest where
  rx := match t with
    | 0 => some (word 5 true)
    | 1 => some (word 7 true)
    | _ => none
  nicReady := true
  pspinReady := true
  conf := ⟨false, fun _ => false, fun _ _ => noRule⟩
  metaReady := true

/-- With a matcher of one beat the first frame loses its tlast and runs into the second one. -/
theorem one_beat_frames_merge :
    acceptedOn oneBeatFrames 11 = [word 5 true, word 7 true] ∧
      sentOn oneBeatFrames 11 = [(false, word 5 false), (false, word 7 true)] ∧
      ¬ ∃ frames, Delivered oneBeatFrames 11 frames := by
  have hAccepted : acceptedOn oneBeatFrames 11 = [word 5 true, word 7 true] := by
    decide +kernel
  have hSent : sentOn oneBeatFrames 11 = [(false, word 5 false), (false, word 7 true)] := by
    decide +kernel
  refine ⟨hAccepted, hSent, fun ⟨frames, hDelivered⟩ => ?_⟩
  have hPrefix := hDelivered.sent_prefix_accepted
  rw [hAccepted, hSent] at hPrefix
  exact absurd hPrefix (by decide +kernel)

end Beats

end FPsPIN.PktMatch
