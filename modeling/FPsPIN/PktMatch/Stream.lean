import FPsPIN.PktMatch.Phases

/-!
# The match engine preserves the stream

Over a run with sound cycles the beats accepted at the input are those of the
frames that have left, of the current frame and of the input FIFO, in order.
What was handed over are the same frames, each wholly on the port of its
verdict, and every frame to PsPIN has its metadata word.
-/

namespace FPsPIN.PktMatch

open LatencyFifo Run

variable {p : Params}

section Runs

variable (inputs : Nat → Input p)

def runAt : Nat → State p := stateAt step (init p (inputs 0).conf) inputs

def trackAt : Nat → Track p
  | 0 => ⟨[], [], 0⟩
  | t + 1 => (trackAt t).step (runAt inputs t) (inputs t)

def acceptedOn : Nat → List (Beat p) :=
  window (fun t => if rxTready (runAt inputs t) (inputs t) then (inputs t).rx.toList else []) 0

def sentOn : Nat → List (Bool × Beat p) := window (fun t => (sent (runAt inputs t) (inputs t)).toList) 0

def metaOn : Nat → List (BitVec p.tagWidth × Nat) :=
  window (fun t => ((metaSent (runAt inputs t) (inputs t)).map (fun x => (x.1, x.2.toNat))).toList) 0

variable {inputs}

theorem run_tracks (hSound : ∀ t, Sound (runAt inputs t) (inputs t)) (t : Nat) :
    Tracks (runAt inputs t) (trackAt inputs t).done (trackAt inputs t).cur (trackAt inputs t).out := by
  induction t with
  | zero => exact tracks_init _
  | succ t ih => exact (tracks_step ih (hSound t)).1

theorem run_handsOver (hSound : ∀ t, Sound (runAt inputs t) (inputs t)) (t : Nat) :
    HandsOver (runAt inputs t) (inputs t) (trackAt inputs t) :=
  (tracks_step (run_tracks hSound t) (hSound t)).2

/-- Beats accepted that the engine has not taken. -/
def queued (s : State p) : List (Beat p) := if p.fifoDepth = 0 then [] else words s.fifo

/-- The way from the input to the engine loses nothing. -/
theorem queued_step (s : State p) (i : Input p) :
    (consumed s i).toList ++ queued (step s i) = queued s ++ if rxTready s i then i.rx.toList else [] := by
  rw [consumed, buffered, rxTready, queued, queued]
  by_cases hDepth : p.fifoDepth = 0
  · rw [if_pos hDepth, if_pos hDepth, if_pos hDepth, if_pos hDepth]
    cases sendCombTready s i <;> simp
  · rw [if_neg hDepth, if_neg hDepth, if_neg hDepth, if_neg hDepth]
    change _ ++ words (LatencyFifo.step p.fifoDepth p.latency s.fifo i.rx (sendCombTready s i)) = _
    rw [words_step, ← List.append_assoc]
    congr 1
    cases sendCombTready s i with
    | false => rfl
    | true =>
      cases hOut : output p.latency s.fifo with
      | none => rfl
      | some b => exact (words_of_output hOut).symm

theorem taken_step (g : Track p) (s : State p) (i : Input p) :
    (g.step s i).done.flatMap Routed.beats ++ (g.step s i).cur =
      g.done.flatMap Routed.beats ++ g.cur ++ (consumed s i).toList := by
  rw [Track.step]
  split_ifs
  · rw [List.flatMap_append, List.flatMap_singleton, List.append_nil, Track.taken, List.append_assoc]
  · rw [Track.taken, List.append_assoc]

theorem queued_init (conf : MatchConf) : queued (init p conf) = [] := ite_self _

theorem run_accepted (t : Nat) :
    acceptedOn inputs t =
      (trackAt inputs t).done.flatMap Routed.beats ++ (trackAt inputs t).cur ++ queued (runAt inputs t) := by
  induction t with
  | zero => exact (queued_init _).symm
  | succ t ih =>
    rw [acceptedOn, window_succ _ (Nat.zero_le t), ← acceptedOn, ih, trackAt, taken_step, List.append_assoc,
      List.append_assoc, ← queued_step]
    simp only [List.append_assoc]
    rfl

theorem matchedQ_of_sending {s : State p} {i : Input p}
    (h : stateD s i = .send ∨ stateD s i = .sendWait ∨ stateD s i = .sendLast ∨ stateD s i = .passthrough) :
    (step s i).matchedQ = s.matchedQ := by
  change (outputs s i).matchedQ = s.matchedQ
  rcases h with hD | hD | hD | hD <;> rw [outputs, hD] <;> rfl

theorem matchedQ_step {s : State p} {i : Input p} {g : Track p} (h : Tracks (step s i) g.done g.cur g.out)
    (hOut : 0 < g.out) : (step s i).matchedQ = s.matchedQ := by
  apply matchedQ_of_sending
  obtain ⟨done, cur, out⟩ := g
  change Tracks (step s i) done cur out at h
  cases h with
  | idle | storing | stored | matching | metadata => exact absurd hOut (Nat.lt_irrefl 0)
  | sending hPhase => exact hPhase.elim Or.inl (fun h => Or.inr (Or.inl h))
  | sendingLast hPhase => exact Or.inr (Or.inr (Or.inl hPhase))
  | passing hPhase => exact Or.inr (Or.inr (Or.inr hPhase))

theorem Tracks.out_le {s : State p} {done : List (Routed p)} {cur : List (Beat p)} {out : Nat}
    (h : Tracks s done cur out) : out ≤ cur.length := by
  cases h with
  | sending _ _ _ hOut =>
    rw [List.length_append]
    omega
  | sendingLast => simp
  | passing => exact Nat.le_refl _
  | idle | storing | stored | matching | metadata => exact Nat.zero_le _

theorem sent_port {s : State p} {i : Input p} {x : Bool × Beat p} (h : sent s i = some x) : x.1 = s.matchedQ := by
  rw [sent] at h
  split_ifs at h
  obtain ⟨b, _, rfl⟩ := Option.map_eq_some_iff.mp h
  rfl

theorem sent_step {s : State p} {i : Input p} {g : Track p} (hOut : g.out ≤ g.cur.length)
    (hFollows : Follows s i g) :
    (g.step s i).done.flatMap (fun f => f.beats.map (Prod.mk f.port)) ++
        ((g.step s i).cur.take (g.step s i).out).map (Prod.mk (step s i).matchedQ) =
      g.done.flatMap (fun f => f.beats.map (Prod.mk f.port)) ++ (g.cur.take g.out).map (Prod.mk s.matchedQ) ++
        (sent s i).toList := by
  obtain ⟨hNext, hHands⟩ := hFollows
  have hTake : (g.taken s i).take g.out = g.cur.take g.out := by
    rw [Track.taken, List.take_append_of_le_length hOut]
  cases hSent : sent s i with
  | none =>
    have hPort : 0 < g.out → (step s i).matchedQ = s.matchedQ := fun hPos => by
      rw [Track.step_of_not_sent g hSent] at hNext
      exact matchedQ_step (g := ⟨g.done, g.cur ++ (consumed s i).toList, g.out⟩) hNext hPos
    rw [Track.step_of_not_sent g hSent, Option.toList, List.append_nil]
    change _ ++ ((g.taken s i).take g.out).map _ = _
    rw [hTake]
    rcases Nat.eq_zero_or_pos g.out with hZero | hPos
    · rw [hZero, List.take_zero, List.map_nil, List.map_nil]
    · rw [hPort hPos]
  | some x =>
    obtain ⟨hBeat, hVerdict, hEnd⟩ := hHands x hSent
    have hPort : x.1 = s.matchedQ := sent_port hSent
    have hMore : (g.taken s i).take (g.out + 1) = g.cur.take g.out ++ [x.2] := by
      rw [List.take_add_one, hTake, hBeat, Option.toList]
    have hPair : [x] = [x.2].map (Prod.mk s.matchedQ) := by
      rw [← hPort]
      rfl
    rw [Option.toList, hPair]
    cases hTlast : x.2.tlast with
    | true =>
      have hLeaves : frameLeaves s i = true := by rw [frameLeaves, hSent]; exact hTlast
      have hAll : (g.taken s i) = g.cur.take g.out ++ [x.2] := by
        rw [← hMore, (hEnd hTlast).2, List.take_length]
      have hJudge : (judge s.store (g.taken s i)).matched = s.matchedQ := by rw [← hVerdict]; rfl
      rw [Track.step, hLeaves, if_pos rfl, List.flatMap_append, List.flatMap_singleton, Routed.port, hJudge, hAll]
      simp
    | false =>
      have hStays : frameLeaves s i = false := by rw [frameLeaves, hSent]; exact hTlast
      have hStep : g.step s i = ⟨g.done, g.taken s i, g.out + 1⟩ := by
        rw [Track.step, hStays, if_neg Bool.false_ne_true, hSent]
        rfl
      have hSame : (step s i).matchedQ = s.matchedQ := by
        rw [hStep] at hNext
        exact matchedQ_step (g := ⟨g.done, g.taken s i, g.out + 1⟩) hNext (Nat.succ_pos _)
      rw [hStep, hSame, hMore, List.map_append, List.append_assoc]

theorem run_sent (hSound : ∀ t, Sound (runAt inputs t) (inputs t)) (t : Nat) :
    sentOn inputs t =
      (trackAt inputs t).done.flatMap (fun f => f.beats.map (Prod.mk f.port)) ++
        ((trackAt inputs t).cur.take (trackAt inputs t).out).map (Prod.mk (runAt inputs t).matchedQ) := by
  induction t with
  | zero => rfl
  | succ t ih =>
    have hTracks := run_tracks hSound t
    rw [sentOn, window_succ _ (Nat.zero_le t), ← sentOn, ih]
    exact (sent_step hTracks.out_le (tracks_step hTracks (hSound t))).symm

theorem run_frames (hSound : ∀ t, Sound (runAt inputs t) (inputs t)) (t : Nat) :
    ∀ f ∈ (trackAt inputs t).done, IsFrame f.beats := by
  induction t with
  | zero => exact fun f hf => absurd hf List.not_mem_nil
  | succ t ih =>
    intro f hf
    rw [trackAt, Track.step] at hf
    split_ifs at hf with hLeaves
    · rcases List.mem_append.mp hf with hf | hf
      · exact ih f hf
      · obtain ⟨x, hSent, hTlast⟩ := (Option.any_eq_true _ _).mp hLeaves
        rw [List.mem_singleton.mp hf]
        exact ((run_handsOver hSound t x hSent).2.2 hTlast).1
    · exact ih f hf

def Routed.metaWord (f : Routed p) : BitVec p.tagWidth × Nat := (f.tag, f.size)

def offered (s : State p) : List (BitVec p.tagWidth × Nat) :=
  if s.packetMetaValid then [(packetMetaTag s, s.packetMetaSize.toNat)] else []

theorem Tracks.offered_eq {s : State p} {done : List (Routed p)} {cur : List (Beat p)} {out : Nat}
    (h : Tracks s done cur out) (hValid : s.packetMetaValid = true) :
    ∃ before f, done = before ++ [f] ∧ f.port = true ∧ offered s = [f.metaWord] ∧ s.stateQ = .metadata := by
  cases h with
  | metadata hPhase hFilling hReady hMeta hPort hTag hSize =>
    refine ⟨_, _, rfl, hPort, ?_, hPhase⟩
    rw [offered, hValid, if_pos rfl, hTag, hSize]
    rfl
  | idle _ _ _ hMeta | storing _ _ _ hMeta | passing _ _ _ _ _ hMeta =>
    exact absurd (hMeta.symm.trans hValid) (by decide)
  | stored _ hHeld | matching _ hHeld | sending _ hHeld | sendingLast _ hHeld =>
    exact absurd (hHeld.packetMetaValid.symm.trans hValid) (by decide)

theorem Tracks.of_metadata {s : State p} {i : Input p} {done : List (Routed p)} {cur : List (Beat p)} {out : Nat}
    (h : Tracks s done cur out) (hPhase : s.stateQ = .metadata) : s.packetMetaValid = true ∧ sent s i = none := by
  cases h with
  | metadata _ hFilling _ hMeta =>
    exact ⟨hMeta, sent_of_not_valid (by rw [doPass, hPhase]; rfl) hFilling.sendTvalid⟩
  | storing hOther | sending hOther => rcases hOther with hOther | hOther <;> simp [hPhase] at hOther
  | idle hOther | stored hOther | matching hOther | sendingLast hOther | passing hOther => simp [hPhase] at hOther

theorem packetMetaValidD_eq {s : State p} {i : Input p} {done : List (Routed p)} {cur : List (Beat p)} {out : Nat}
    (h : Tracks s done cur out) (hValid : s.packetMetaValid = false) :
    packetMetaValidD s i = (frameLeaves s i && s.matchedQ) := by
  rw [packetMetaValidD, hValid, Bool.and_false, if_neg Bool.false_ne_true, ← frameLeaves]
  by_cases hIdle : s.stateQ = .idle
  · have hSent : sent s i = none := by
      cases h with
      | idle _ hFilling => exact sent_of_not_valid (by rw [doPass, hIdle]; rfl) hFilling.sendTvalid
      | storing hPhase => rcases hPhase with hPhase | hPhase <;> exact absurd (hIdle.symm.trans hPhase) (by decide)
      | sending hPhase => rcases hPhase with hPhase | hPhase <;> exact absurd (hIdle.symm.trans hPhase) (by decide)
      | stored hPhase | matching hPhase | sendingLast hPhase | passing hPhase | metadata hPhase =>
        exact absurd (hIdle.symm.trans hPhase) (by decide)
    rw [hIdle, frameLeaves, hSent]
    rfl
  · rw [beq_false_of_ne hIdle, if_neg Bool.false_ne_true]
    cases frameLeaves s i <;> rfl

theorem meta_step {s : State p} {i : Input p} {g : Track p} (h : Tracks s g.done g.cur g.out)
    (hFollows : Follows s i g) :
    ∃ new, ((g.step s i).done.filter Routed.port).map Routed.metaWord =
        (g.done.filter Routed.port).map Routed.metaWord ++ new ∧
      offered s ++ new = ((metaSent s i).map (fun x => (x.1, x.2.toNat))).toList ++ offered (step s i) := by
  obtain ⟨hNext, hHands⟩ := hFollows
  cases hValid : s.packetMetaValid with
  | true =>
    obtain ⟨before, f, hDone, hPort, hOffered, hPhase⟩ := h.offered_eq hValid
    have hSent : sent s i = none := (h.of_metadata hPhase).2
    have hStep := Track.step_of_not_sent g hSent
    refine ⟨[], by rw [hStep, List.append_nil], ?_⟩
    cases hReady : i.metaReady with
    | true =>
      have hGone : (step s i).packetMetaValid = false := by
        change packetMetaValidD s i = false
        rw [packetMetaValidD, hPhase, hReady, hValid]
        rfl
      rw [offered, offered, hValid, hGone, metaSent, hReady, hValid]
      rfl
    | false =>
      have hKept : (step s i).packetMetaValid = true := by
        change packetMetaValidD s i = true
        rw [packetMetaValidD, hPhase, hReady, hValid, hSent]
        rfl
      obtain ⟨before', f', hDone', _, hOffered', _⟩ := hNext.offered_eq hKept
      rw [hStep] at hDone'
      have hSame : f = f' := by
        have hEq := hDone.symm.trans hDone'
        exact (List.append_inj' hEq rfl).2 |> List.singleton_inj.mp
      rw [hOffered, hOffered', hSame, metaSent, hReady]
      rfl
  | false =>
    have hValid' : (step s i).packetMetaValid = (frameLeaves s i && s.matchedQ) := packetMetaValidD_eq h hValid
    have hNone : metaSent s i = none := by rw [metaSent, hValid, Bool.and_false, if_neg Bool.false_ne_true]
    rw [offered, hValid, if_neg Bool.false_ne_true, hNone, Option.map_none, Option.toList, List.nil_append]
    refine ⟨offered (step s i), ?_, rfl⟩
    cases hLeaves : frameLeaves s i with
    | false =>
      rw [offered, hValid', hLeaves, Bool.false_and, if_neg Bool.false_ne_true, List.append_nil, Track.step, hLeaves,
        if_neg Bool.false_ne_true]
    | true =>
      obtain ⟨x, hSent, hTlast⟩ := (Option.any_eq_true _ _).mp hLeaves
      have hPort : (⟨s.store, g.taken s i⟩ : Routed p).port = s.matchedQ := by
        rw [Routed.port, ← (hHands x hSent).2.1]
        rfl
      have hStep : (g.step s i).done = g.done ++ [⟨s.store, g.taken s i⟩] := by
        rw [Track.step, hLeaves, if_pos rfl]
      rw [hStep, List.filter_append, List.map_append, List.filter_singleton, hPort]
      cases hMatched : s.matchedQ with
      | false => rw [offered, hValid', hLeaves, hMatched]; rfl
      | true =>
        rw [hLeaves, hMatched] at hValid'
        obtain ⟨before, f, hDone, _, hOffered, _⟩ := hNext.offered_eq hValid'
        have hSame : (⟨s.store, g.taken s i⟩ : Routed p) = f :=
          (List.append_inj' (hStep.symm.trans hDone) rfl).2 |> List.singleton_inj.mp
        rw [hOffered, ← hSame]
        rfl

theorem run_metaOn (hSound : ∀ t, Sound (runAt inputs t) (inputs t)) (t : Nat) :
    metaOn inputs t ++ offered (runAt inputs t) =
      ((trackAt inputs t).done.filter Routed.port).map Routed.metaWord := by
  induction t with
  | zero => rfl
  | succ t ih =>
    have hTracks := run_tracks hSound t
    obtain ⟨new, hNew, hOffered⟩ := meta_step hTracks (tracks_step hTracks (hSound t))
    rw [metaOn, window_succ _ (Nat.zero_le t), ← metaOn, List.append_assoc]
    change _ ++ (_ ++ offered (step (runAt inputs t) (inputs t))) = _
    rw [← hOffered, ← List.append_assoc, ih]
    exact hNew.symm

end Runs

end FPsPIN.PktMatch
