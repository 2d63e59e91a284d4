import FPsPIN.Lib.Blocks
import FPsPIN.PktMatch.Classification
import FPsPIN.PktMatch.Reading

/-!
# The outcome of a frame does not depend on its history

A run is watched from outside: the beats taken for each frame, the ports of
the beats handed over for it, and the metadata words in their order. Under one
configuration all of this is a function of the beats of the frame, for every
choice of the parameters and every back-pressure.
-/

namespace FPsPIN.PktMatch

open LatencyFifo Run Blocks

variable {p : Params}

/-- A frame that has left: the beats taken for it and the ports of the beats handed over for it. -/
structure Handled (p : Params) where
  beats : List (Beat p)
  ports : List Bool
deriving DecidableEq

def Handled.toPspin (f : Handled p) : Bool := f.ports.contains true

structure Watch (p : Params) where
  done : List (Handled p)
  cur : List (Beat p)
  ports : List Bool

section Step

variable (w : Watch p) (s : State p) (i : Input p)

def Watch.taken : List (Beat p) := w.cur ++ (consumed s i).toList

def Watch.step : Watch p :=
  if frameLeaves s i then ⟨w.done ++ [⟨w.taken s i, portsWith s i w.ports⟩], [], []⟩
  else ⟨w.done, w.taken s i, portsWith s i w.ports⟩

end Step

section Observed

variable (inputs : Nat → Input p)

def watchAt : Nat → Watch p
  | 0 => ⟨[], [], []⟩
  | t + 1 => (watchAt t).step (runAt inputs t) (inputs t)

def handled (t : Nat) : List (Handled p) := (watchAt inputs t).done

/-- The metadata words handed over before cycle t, and the one on offer. -/
def reported (t : Nat) : List (BitVec p.tagWidth × Nat) := metaOn inputs t ++ offered (runAt inputs t)

/-- The frames with their metadata words. The words come in the order of the frames to PsPIN. -/
def withWords {Word : Type*} : List (Handled p) → List Word → List (Handled p × Option Word)
  | [], _ => []
  | f :: frames, words =>
    if f.toPspin then (f, words.head?) :: withWords frames words.tail else (f, none) :: withWords frames words

def treated (t : Nat) : List (Handled p × Option (BitVec p.tagWidth × Nat)) :=
  withWords (handled inputs t) (reported inputs t)

end Observed

section Function

variable (rules : RuleStore) (beats : List (Beat p))

def frameVerdict : Verdict p := verdict p rules (reading beats).matcher

def portsOf : List Bool := List.replicate (reading beats).count (frameVerdict rules beats).matched

def metaWordOf : BitVec p.tagWidth × Nat :=
  ((frameVerdict rules beats).tag, (BitVec.ofNat 32 ((reading beats).count * p.beatSize)).toNat)

def wordOf : Option (BitVec p.tagWidth × Nat) :=
  if (frameVerdict rules beats).matched then some (metaWordOf rules beats) else none

/-- The beats make up a frame, as the engine reads them. -/
def frameComplete : Bool := (reading beats).complete

end Function

section Steps

variable {w : Watch p} {s : State p} {i : Input p}

theorem reads_watch (h : Reads s (reading w.cur) w.ports) (i : Input p) :
    Reads (step s i) (reading (w.step s i).cur) (w.step s i).ports := by
  have hMoves := moves_step h i
  rw [Moves] at hMoves
  rw [Watch.step]
  split_ifs at hMoves ⊢
  · exact hMoves.1
  · rw [← reading_append] at hMoves
    exact hMoves

theorem leaves_watch (h : Reads s (reading w.cur) w.ports) (hLeaves : frameLeaves s i = true) :
    Leaves s i (reading (w.taken s i)) (portsWith s i w.ports) := by
  have hMoves := moves_step h i
  rw [Moves, if_pos hLeaves, ← reading_append] at hMoves
  exact hMoves.2

theorem Reads.unfinished_of_consumed {r : Reading p} {ports : List Bool} (h : Reads s r ports) {b : Beat p}
    (hConsumed : consumed s i = some b) : r.complete = false := by
  have hHeld : ∀ {count : Nat} {more : Bool}, Replaying s count more → doPass s = false → False :=
    fun hReplaying hPass => by
      rw [consumed_of_blocked hPass hReplaying.bufferedTready] at hConsumed
      cases hConsumed
  cases h with
  | idle | storing | passing | metadata => rfl
  | stored hPhase _ hReplaying => exact (hHeld hReplaying (by rw [doPass, hPhase]; rfl)).elim
  | matching hPhase hReplaying => exact (hHeld hReplaying (by rw [doPass, hPhase]; rfl)).elim
  | sending hPhase hReplaying =>
    exact (hHeld hReplaying (by rcases hPhase with hPhase | hPhase <;> rw [doPass, hPhase] <;> rfl)).elim
  | sendingLast hPhase hReplaying => exact (hHeld hReplaying (by rw [doPass, hPhase]; rfl)).elim

theorem unfinished_taken (h : Reads s (reading w.cur) w.ports)
    (hOpen : ∀ k < w.cur.length, frameComplete (w.cur.take k) = false) :
    ∀ k < (w.taken s i).length, frameComplete ((w.taken s i).take k) = false := by
  intro k hk
  rw [Watch.taken] at hk ⊢
  cases hConsumed : consumed s i with
  | none =>
    rw [hConsumed, Option.toList, List.append_nil] at hk
    rw [Option.toList, List.append_nil]
    exact hOpen k hk
  | some b =>
    rw [hConsumed, Option.toList, List.length_append, List.length_singleton] at hk
    rw [List.take_append_of_le_length (Nat.le_of_lt_succ hk)]
    rcases Nat.lt_or_ge k w.cur.length with hLt | hGe
    · exact hOpen k hLt
    · rw [List.take_of_length_le hGe]
      exact h.unfinished_of_consumed hConsumed

theorem Reads.not_valid_of_leaves {r : Reading p} {ports : List Bool} (h : Reads s r ports)
    (hLeaves : frameLeaves s i = true) : s.packetMetaValid = false := by
  cases h with
  | idle _ _ _ hMeta | storing _ _ _ _ hMeta | passing _ _ _ hMeta => exact hMeta
  | stored _ _ hReplaying | matching _ hReplaying | sending _ hReplaying | sendingLast _ hReplaying =>
    exact hReplaying.packetMetaValid
  | metadata hPhase hStoring =>
    rw [frameLeaves, sent_of_not_valid (by rw [doPass, hPhase]; rfl) hStoring.sendTvalid] at hLeaves
    cases hLeaves

theorem Reads.of_valid {r : Reading p} {ports : List Bool} (h : Reads s r ports)
    (hValid : s.packetMetaValid = true) : s.stateQ = .metadata ∧ s.sendTvalid = false := by
  cases h with
  | metadata hPhase hStoring => exact ⟨hPhase, hStoring.sendTvalid⟩
  | idle _ _ _ hMeta | storing _ _ _ _ hMeta | passing _ _ _ hMeta =>
    exact absurd (hMeta.symm.trans hValid) (by decide)
  | stored _ _ hReplaying | matching _ hReplaying | sending _ hReplaying | sendingLast _ hReplaying =>
    exact absurd (hReplaying.packetMetaValid.symm.trans hValid) (by decide)

theorem offered_step {r : Reading p} {ports : List Bool} (h : Reads s r ports)
    (hStays : frameLeaves s i = false) :
    ((metaSent s i).map (fun x => (x.1, x.2.toNat))).toList ++ offered (step s i) = offered s := by
  cases hValid : s.packetMetaValid with
  | false =>
    have hValidD : (step s i).packetMetaValid = false := packetMetaValidD_of_stays hValid hStays
    rw [metaSent, hValid, Bool.and_false, offered, hValidD, offered, hValid]
    rfl
  | true =>
    obtain ⟨hPhase, hSend⟩ := h.of_valid hValid
    obtain ⟨_, _, hMetaD, _⟩ := metadata_signals (i := i) hPhase hValid hSend
    have hValidD : (step s i).packetMetaValid = !i.metaReady := hMetaD
    rw [metaSent, hValid, Bool.and_true, offered, hValidD, offered, hValid]
    cases hReady : i.metaReady with
    | true => rfl
    | false =>
      obtain ⟨hTag, hSize⟩ := metadata_kept hPhase hValid hSend hReady
      rw [hTag, hSize]
      rfl

theorem count_pos {beats : List (Beat p)} (h : frameComplete beats = true) : 0 < (reading beats).count := by
  rcases List.eq_nil_or_concat beats with rfl | ⟨body, last, rfl⟩
  · cases h
  · have hTake : reading (body ++ [last]) = (reading body).take last := reading_append body (some last)
    rw [frameComplete, List.concat_eq_append, hTake] at h
    rw [List.concat_eq_append, hTake]
    cases hBody : reading body with
    | held => exact Nat.succ_pos _
    | storing matcher idx =>
      rw [hBody, Reading.take] at h
      rw [Reading.take]
      split_ifs at h ⊢
      · exact Nat.succ_pos _
      · cases h

end Steps

section Runs

variable {inputs : Nat → Input p}

theorem run_reads (inputs : Nat → Input p) (t : Nat) :
    Reads (runAt inputs t) (reading (watchAt inputs t).cur) (watchAt inputs t).ports := by
  induction t with
  | zero => exact reads_init _
  | succ t ih => exact reads_watch ih (inputs t)

theorem run_unfinished (t : Nat) :
    ∀ k < (watchAt inputs t).cur.length, frameComplete ((watchAt inputs t).cur.take k) = false := by
  induction t with
  | zero => exact fun k hk => absurd hk (Nat.not_lt_zero k)
  | succ t ih =>
    rw [watchAt, Watch.step]
    split_ifs with hLeaves
    · exact fun k hk => absurd hk (Nat.not_lt_zero k)
    · exact unfinished_taken (run_reads inputs t) ih

theorem handled_succ_of_leaves {t : Nat} (hLeaves : frameLeaves (runAt inputs t) (inputs t) = true) :
    handled inputs (t + 1) = handled inputs t ++
      [⟨(watchAt inputs t).taken (runAt inputs t) (inputs t),
        portsWith (runAt inputs t) (inputs t) (watchAt inputs t).ports⟩] := by
  rw [handled, watchAt, Watch.step, hLeaves, if_pos rfl, handled]

theorem handled_succ_of_stays {t : Nat} (hStays : frameLeaves (runAt inputs t) (inputs t) = false) :
    handled inputs (t + 1) = handled inputs t := by
  rw [handled, watchAt, Watch.step, hStays, if_neg Bool.false_ne_true, handled]

theorem reported_succ (t : Nat) :
    reported inputs (t + 1) = metaOn inputs t ++
      (((metaSent (runAt inputs t) (inputs t)).map (fun x => (x.1, x.2.toNat))).toList ++
        offered (step (runAt inputs t) (inputs t))) := by
  rw [reported, metaOn, window_succ _ (Nat.zero_le t), List.append_assoc]
  rfl

theorem exists_leaves {t : Nat} {f : Handled p} (hf : f ∈ handled inputs t) :
    ∃ u < t, frameLeaves (runAt inputs u) (inputs u) = true ∧
      f = ⟨(watchAt inputs u).taken (runAt inputs u) (inputs u),
        portsWith (runAt inputs u) (inputs u) (watchAt inputs u).ports⟩ := by
  induction t with
  | zero => cases hf
  | succ t ih =>
    rw [handled, watchAt, Watch.step] at hf
    split_ifs at hf with hLeaves
    · rcases List.mem_append.mp hf with hf | hf
      · obtain ⟨u, hu, hLeft⟩ := ih hf
        exact ⟨u, Nat.lt_succ_of_lt hu, hLeft⟩
      · exact ⟨t, Nat.lt_succ_self t, hLeaves, List.mem_singleton.mp hf⟩
    · obtain ⟨u, hu, hLeft⟩ := ih hf
      exact ⟨u, Nat.lt_succ_of_lt hu, hLeft⟩

theorem run_isBlock {t : Nat} {f : Handled p} (hf : f ∈ handled inputs t) : IsBlock frameComplete f.beats := by
  obtain ⟨u, _, hLeaves, rfl⟩ := exists_leaves hf
  exact ⟨unfinished_taken (run_reads inputs u) (run_unfinished u),
    (leaves_watch (run_reads inputs u) hLeaves).complete⟩

theorem handled_isBlock (inputs : Nat → Input p) (t : Nat) :
    ∀ beats ∈ (handled inputs t).map Handled.beats, IsBlock frameComplete beats := by
  intro beats hMem
  obtain ⟨f, hf, rfl⟩ := List.mem_map.mp hMem
  exact run_isBlock hf

theorem handled_beats (t : Nat) : ((handled inputs t).map Handled.beats).flatten <+: acceptedOn inputs t := by
  have hTrack : ∀ t, (watchAt inputs t).done.map Handled.beats = (trackAt inputs t).done.map Routed.beats ∧
      (watchAt inputs t).cur = (trackAt inputs t).cur := by
    intro t
    induction t with
    | zero => exact ⟨rfl, rfl⟩
    | succ t ih =>
      rw [watchAt, trackAt, Watch.step, Track.step, Watch.taken, Track.taken, ih.2]
      split_ifs
      · exact ⟨by rw [List.map_append, List.map_append, ih.1]; rfl, rfl⟩
      · exact ⟨ih.1, rfl⟩
  rw [handled, (hTrack t).1, ← List.flatMap_def, run_accepted t, List.append_assoc]
  exact List.prefix_append _ _

theorem withWords_eq {Word : Type*} (word : Handled p → Word) (frames : List (Handled p)) :
    withWords frames ((frames.filter Handled.toPspin).map word) =
      frames.map (fun f => (f, if f.toPspin then some (word f) else none)) := by
  induction frames with
  | nil => rfl
  | cons f frames ih =>
    cases hTo : f.toPspin with
    | true =>
      rw [List.filter_cons_of_pos hTo, List.map_cons, List.map_cons, withWords, if_pos hTo, List.tail_cons, ih,
        hTo]
      rfl
    | false =>
      have hNot : ¬ f.toPspin = true := by rw [hTo]; exact Bool.false_ne_true
      rw [List.filter_cons_of_neg hNot, List.map_cons, withWords, if_neg hNot, ih, hTo]
      rfl

section Configured

variable {conf : MatchConf} (hConf : ∀ t, (inputs t).conf = conf)
include hConf

theorem run_leaves {t : Nat} (hLeaves : frameLeaves (runAt inputs t) (inputs t) = true) :
    verdictQ (runAt inputs t) =
      frameVerdict conf.stored ((watchAt inputs t).taken (runAt inputs t) (inputs t)) := by
  rw [frameVerdict, ← store_of_conf hConf t]
  exact (leaves_watch (run_reads inputs t) hLeaves).verdictQ

theorem run_ports {t : Nat} {f : Handled p} (hf : f ∈ handled inputs t) :
    f.ports = portsOf conf.stored f.beats := by
  obtain ⟨u, _, hLeaves, rfl⟩ := exists_leaves hf
  rw [portsOf, ← run_leaves hConf hLeaves]
  exact (leaves_watch (run_reads inputs u) hLeaves).ports

theorem run_toPspin {t : Nat} {f : Handled p} (hf : f ∈ handled inputs t) :
    f.toPspin = (frameVerdict conf.stored f.beats).matched := by
  have hPos := count_pos (run_isBlock hf).complete
  rw [Handled.toPspin, run_ports hConf hf, portsOf, Bool.eq_iff_iff, List.contains_iff_mem, List.mem_replicate]
  constructor
  · exact fun h => h.2.symm
  · exact fun h => ⟨Nat.ne_of_gt hPos, h.symm⟩

theorem run_offered {t : Nat} (hLeaves : frameLeaves (runAt inputs t) (inputs t) = true) :
    offered (step (runAt inputs t) (inputs t)) =
      if (runAt inputs t).matchedQ then
        [metaWordOf conf.stored ((watchAt inputs t).taken (runAt inputs t) (inputs t))] else [] := by
  have hLast := leaves_watch (run_reads inputs t) hLeaves
  rw [offered, hLast.valid, hLast.tag, hLast.size, metaWordOf, ← run_leaves hConf hLeaves]
  rfl

theorem run_reported (t : Nat) :
    reported inputs t =
      ((handled inputs t).filter Handled.toPspin).map (fun f => metaWordOf conf.stored f.beats) := by
  induction t with
  | zero => rfl
  | succ t ih =>
    have hReads := run_reads inputs t
    rw [reported_succ]
    cases hLeaves : frameLeaves (runAt inputs t) (inputs t) with
    | false => rw [offered_step hReads hLeaves, handled_succ_of_stays hLeaves, ← ih, reported]
    | true =>
      have hValid := hReads.not_valid_of_leaves hLeaves
      have hMore := handled_succ_of_leaves hLeaves
      have hPort := run_toPspin hConf (t := t + 1) (hMore ▸ List.mem_append_right _ (List.mem_singleton_self _))
      rw [← run_leaves hConf hLeaves] at hPort
      change _ = (runAt inputs t).matchedQ at hPort
      rw [hMore, List.filter_append, List.map_append, ← ih, List.filter_singleton, hPort, run_offered hConf hLeaves,
        reported, offered, hValid, metaSent, hValid, Bool.and_false]
      cases (runAt inputs t).matchedQ <;> simp

theorem treated_eq (t : Nat) :
    treated inputs t = (handled inputs t).map (fun f => (f, wordOf conf.stored f.beats)) := by
  rw [treated, run_reported hConf, withWords_eq]
  refine List.map_congr_left (fun f hf => ?_)
  rw [wordOf, run_toPspin hConf hf]

theorem treated_getElem? {t m : Nat} {seen : Handled p × Option (BitVec p.tagWidth × Nat)}
    (h : (treated inputs t)[m]? = some seen) :
    (handled inputs t)[m]? = some seen.1 ∧ seen.1.ports = portsOf conf.stored seen.1.beats ∧
      seen.2 = wordOf conf.stored seen.1.beats := by
  rw [treated_eq hConf, List.getElem?_map, Option.map_eq_some_iff] at h
  obtain ⟨f, hf, rfl⟩ := h
  exact ⟨hf, run_ports hConf (List.mem_of_getElem? hf), rfl⟩

end Configured

end Runs

section History

theorem frameComplete_append (hBeats : p.matcherBeats ≠ 1) (beats : List (Beat p)) (b : Beat p) :
    frameComplete (beats ++ [b]) = b.tlast := by
  have hTake : reading (beats ++ [b]) = (reading beats).take b := reading_append beats (some b)
  rw [frameComplete, hTake]
  cases reading beats with
  | held => exact Bool.not_not _
  | storing matcher idx =>
    rw [Reading.take]
    split_ifs with hEnds
    · change (!(p.matcherBeats == 1 || !b.tlast)) = b.tlast
      rw [beq_false_of_ne hBeats, Bool.false_or, Bool.not_not]
    · exact (Bool.or_eq_false_iff.mp (Bool.not_eq_true _ ▸ hEnds)).1.symm

theorem IsFrame.isBlock (hBeats : p.matcherBeats ≠ 1) {frame : List (Beat p)} (h : IsFrame frame) :
    IsBlock frameComplete frame := by
  obtain ⟨body, last, rfl, hOpen, hTlast⟩ := h
  refine ⟨fun k hk => ?_, (frameComplete_append hBeats body last).trans hTlast⟩
  rw [List.length_append, List.length_singleton] at hk
  rw [List.take_append_of_le_length (Nat.le_of_lt_succ hk)]
  rcases List.eq_nil_or_concat (body.take k) with hNil | ⟨front, b, hFront⟩
  · rw [hNil]
    rfl
  · rw [List.concat_eq_append] at hFront
    rw [hFront, frameComplete_append hBeats]
    exact hOpen b (List.mem_of_mem_take (hFront ▸ List.mem_append_right front (List.mem_singleton_self b)))

theorem handled_frame (hBeats : p.matcherBeats ≠ 1) {inputs : Nat → Input p} {earlier : List (List (Beat p))}
    {frame : List (Beat p)} (hFrames : ∀ f ∈ earlier ++ [frame], IsFrame f) {t : Nat}
    (hIn : (earlier ++ [frame]).flatten <+: acceptedOn inputs t) {f : Handled p}
    (hf : (handled inputs t)[earlier.length]? = some f) : f.beats = frame := by
  have hSame : Agree Eq (acceptedOn inputs t) (acceptedOn inputs t) :=
    fun k x y hX hY => Option.some.inj (hX.symm.trans hY)
  have hEq : List.Forall₂ Eq f.beats frame := by
    refine forall₂_of_blocks (fun xs ys h => ?_) (handled_isBlock inputs t)
      (fun g hg => (hFrames g hg).isBlock hBeats)
      (hSame.of_prefixes (handled_beats t) hIn) (m := earlier.length) ?_ ?_
    · rw [List.forall₂_eq_eq_eq] at h
      rw [h]
    · rw [List.getElem?_map, hf, Option.map_some]
    · exact List.getElem?_concat_length
  rwa [List.forall₂_eq_eq_eq] at hEq

/-- After any two histories, under any back-pressure, the same frame goes to the same port with the same
metadata word. -/
theorem history_independent (hBeats : 2 ≤ p.matcherBeats) {conf : MatchConf} {inputs inputs' : Nat → Input p}
    (hConf : ∀ t, (inputs t).conf = conf) (hConf' : ∀ t, (inputs' t).conf = conf)
    {earlier earlier' : List (List (Beat p))} {frame : List (Beat p)}
    (hFrames : ∀ f ∈ earlier ++ [frame], IsFrame f)
    (hFrames' : ∀ f ∈ earlier' ++ [frame], IsFrame f) {t t' : Nat}
    (hIn : (earlier ++ [frame]).flatten <+: acceptedOn inputs t)
    (hIn' : (earlier' ++ [frame]).flatten <+: acceptedOn inputs' t')
    {seen seen' : Handled p × Option (BitVec p.tagWidth × Nat)}
    (hSeen : (treated inputs t)[earlier.length]? = some seen)
    (hSeen' : (treated inputs' t')[earlier'.length]? = some seen') :
    seen.1.ports = seen'.1.ports ∧ seen.2 = seen'.2 := by
  have hNot : p.matcherBeats ≠ 1 := by omega
  obtain ⟨hHandled, hPorts, hWord⟩ := treated_getElem? hConf hSeen
  obtain ⟨hHandled', hPorts', hWord'⟩ := treated_getElem? hConf' hSeen'
  have hBeatsOf := handled_frame hNot hFrames hIn hHandled
  have hBeatsOf' := handled_frame hNot hFrames' hIn' hHandled'
  rw [hPorts, hPorts', hWord, hWord', hBeatsOf, hBeatsOf']
  exact ⟨rfl, rfl⟩

/-- The frame of two beats behind a frame of one, with PsPIN ready in every third cycle. The first beat of the second
frame waits for the engine. -/
def afterShort (t : Nat) : Input deployed where
  rx := match t with
    | 0 => some (word 9 true)
    | 1 | 2 | 3 | 4 | 5 => some (word 5 false)
    | 6 => some (word 7 true)
    | _ => none
  nicReady := true
  pspinReady := t % 3 == 0
  conf := ⟨true, fun _ => false, fun _ _ => ⟨0, 0, 0, 0⟩⟩
  metaReady := true

theorem isFrame_twoBeats : IsFrame (p := deployed) [word 5 false, word 7 true] := by
  refine ⟨[word 5 false], word 7 true, rfl, fun b hb => ?_, rfl⟩
  rw [List.mem_singleton.mp hb]
  rfl

theorem history_independent_afterShort :
    ∃ seen seen', (treated twoBeats 12)[0]? = some seen ∧ (treated afterShort 40)[1]? = some seen' ∧
      seen.1.ports = seen'.1.ports ∧ seen.2 = seen'.2 := by
  obtain ⟨seen, hSeen⟩ := Option.isSome_iff_exists.mp
    (show (treated twoBeats 12)[0]?.isSome = true by decide +kernel)
  obtain ⟨seen', hSeen'⟩ := Option.isSome_iff_exists.mp
    (show (treated afterShort 40)[1]?.isSome = true by decide +kernel)
  have hFrames : ∀ f ∈ [] ++ [[word 5 false, word 7 true]], IsFrame (p := deployed) f := by
    intro f hf
    rw [List.mem_singleton.mp hf]
    exact isFrame_twoBeats
  have hFrames' : ∀ f ∈ [[word 9 true]] ++ [[word 5 false, word 7 true]], IsFrame (p := deployed) f := by
    intro f hf
    rcases List.mem_cons.mp hf with rfl | hf
    · exact ⟨[], word 9 true, rfl, fun b hb => absurd hb List.not_mem_nil, rfl⟩
    · rw [List.mem_singleton.mp hf]
      exact isFrame_twoBeats
  have hIn : ([] ++ [[word 5 false, word 7 true]]).flatten <+: acceptedOn twoBeats 12 := by decide +kernel
  have hIn' : ([[word 9 true]] ++ [[word 5 false, word 7 true]]).flatten <+: acceptedOn afterShort 40 := by
    decide +kernel
  have hConf : ∀ t, (twoBeats t).conf = ⟨true, fun _ => false, fun _ _ => ⟨0, 0, 0, 0⟩⟩ := fun _ => rfl
  have hConf' : ∀ t, (afterShort t).conf = ⟨true, fun _ => false, fun _ _ => ⟨0, 0, 0, 0⟩⟩ := fun _ => rfl
  exact ⟨seen, seen', hSeen, hSeen',
    history_independent (by decide +kernel) hConf hConf' hFrames hFrames' hIn hIn' hSeen hSeen'⟩

end History

end FPsPIN.PktMatch
