import FPsPIN.Ingress.Datapath

/-!
# Frames and descriptors stay paired

The DMA engine joins two queues: frames come from the match engine, their
descriptors through the allocator. In a run in which every metadata word
becomes a descriptor both queues list the same frames, and a HER describes the
frame that was written to its buffer. A frame that no slot can hold leaves no
descriptor behind while its beats stay in the stream; from then on every
descriptor takes the frame before its own.
-/

namespace FPsPIN.IngressDatapath

open Run HerGen IngressDma
open PktMatch (Routed)

variable {p : Params}

/-- The cycle keeps the engine sound, and a metadata word handed over fits the length wires, has a class and
finds a slot of it at the output of the free FIFO. -/
structure Paired (s : State p) (i : Input p) : Prop where
  sound : PktMatch.Sound s.engine (engineInput s i)
  described : ∀ x, PktMatch.metaSent s.engine (engineInput s i) = some x → x.2.toNat < 2 ^ p.alloc.lenWidth ∧
    ∃ c, p.alloc.classOf x.2.toNat = some c ∧ (PktAlloc.deqOutput s.alloc c).isSome = true

section Step

variable {s : State p} {i : Input p}

theorem writeDesc_of_not_accepted (h : PktAlloc.pktAccepted s.alloc (allocInput s i) = false) :
    issued s i = none := by
  have hDesc : PktAlloc.writeDesc s.alloc (allocInput s i) = none := by
    rw [PktAlloc.writeDesc, PktAlloc.allocClass, h, if_neg Bool.false_ne_true]
    rfl
  rw [issued, HerDelivery.accepted, herInput, hDesc, dmaDesc, Option.map_none, ite_self, ite_self]

theorem issued_of_accepted (h : PktAlloc.pktAccepted s.alloc (allocInput s i) = true) :
    issued s i = (PktAlloc.writeDesc s.alloc (allocInput s i)).map (fun x => ⟨x.1, x.2.1, x.2.2⟩) := by
  have hReady : writeReady s i = true := by
    simp only [PktAlloc.pktAccepted, PktAlloc.pktReady, Bool.and_eq_true] at h
    exact h.2.1.1.1
  obtain ⟨hDma, hGen⟩ := Bool.and_eq_true_iff.mp hReady
  rw [issued, HerDelivery.accepted, dmaDesc]
  change (if i.dmaReady then if genReady s.her.store i.herReady then _ else _ else _) = _
  rw [hDma, hGen, if_pos rfl, if_pos rfl]
  rfl

/-- A metadata word handed over becomes a descriptor in the same cycle. -/
theorem issued_eq (h : Paired s i) :
    (issued s i).map (fun d => (d.tag, d.len.toNat)) =
      (PktMatch.metaSent s.engine (engineInput s i)).map (fun x => (x.1.setWidth p.alloc.tagWidth, x.2.toNat)) := by
  have hDescribed := h.described
  rw [PktMatch.metaSent] at hDescribed ⊢
  change ∀ x, (if PktAlloc.pktReady s.alloc (allocInput s i) && s.engine.packetMetaValid then _ else _) = _ → _
    at hDescribed
  change _ = Option.map _ (if PktAlloc.pktReady s.alloc (allocInput s i) && s.engine.packetMetaValid then _ else _)
  have hComm : PktAlloc.pktAccepted s.alloc (allocInput s i) =
      (PktAlloc.pktReady s.alloc (allocInput s i) && s.engine.packetMetaValid) := Bool.and_comm _ _
  rw [← hComm] at hDescribed ⊢
  cases hAccepted : PktAlloc.pktAccepted s.alloc (allocInput s i) with
  | false => rw [writeDesc_of_not_accepted hAccepted, if_neg Bool.false_ne_true, Option.map_none, Option.map_none]
  | true =>
    rw [hAccepted] at hDescribed
    obtain ⟨hFits, c, hClass, hSlot⟩ := hDescribed _ (if_pos rfl)
    obtain ⟨addr, hAddr⟩ := Option.isSome_iff_exists.mp hSlot
    have hLen : (s.engine.packetMetaSize.setWidth p.alloc.lenWidth).toNat = s.engine.packetMetaSize.toNat := by
      rw [BitVec.toNat_setWidth, Nat.mod_eq_of_lt hFits]
    have hDesc : PktAlloc.writeDesc s.alloc (allocInput s i) =
        some (addr, (allocInput s i).pktLen, (allocInput s i).pktTag) := by
      rw [PktAlloc.writeDesc, PktAlloc.allocClass, hAccepted, if_pos rfl]
      change (p.alloc.classOf (s.engine.packetMetaSize.setWidth p.alloc.lenWidth).toNat).bind _ = _
      rw [hLen, hClass, Option.bind_some, hAddr]
      rfl
    rw [issued_of_accepted hAccepted, hDesc, if_pos rfl]
    change some (_, (s.engine.packetMetaSize.setWidth p.alloc.lenWidth).toNat) = _
    rw [hLen]
    rfl

end Step

theorem getElem?_of_prefix_of {α : Type*} {l l' : List α} (h : l <+: l') {k : Nat} {a : α} (hk : l[k]? = some a) :
    l'[k]? = some a := by
  obtain ⟨hLt, rfl⟩ := List.getElem?_eq_some_iff.mp hk
  exact List.prefix_iff_getElem?.mp h k hLt

section Streams

variable {e : PktMatch.Params}

def pspinBeats (x : Bool × PktMatch.Beat e) : List (PktMatch.Beat e) := if x.1 then [x.2] else []

theorem flatMap_pspinBeats (port : Bool) (beats : List (PktMatch.Beat e)) :
    (beats.map (Prod.mk port)).flatMap pspinBeats = if port then beats else [] := by
  induction beats with
  | nil => cases port <;> rfl
  | cons b beats ih =>
    rw [List.map_cons, List.flatMap_cons, ih]
    cases port <;> rfl

theorem flatMap_frames (frames : List (Routed e)) :
    (frames.flatMap (fun f => f.beats.map (Prod.mk f.port))).flatMap pspinBeats =
      ((frames.filter Routed.port).map Routed.beats).flatten := by
  induction frames with
  | nil => rfl
  | cons f frames ih =>
    rw [List.flatMap_cons, List.flatMap_append, flatMap_pspinBeats, ih, List.filter_cons]
    cases f.port <;> rfl

theorem length_frameBytes_le (frame : List (PktMatch.Beat e)) :
    (frameBytes frame).length ≤ frame.length * e.keepWidth := by
  induction frame with
  | nil => exact Nat.zero_le _
  | cons b frame ih =>
    have hBeat : (beatBytes b).length ≤ e.keepWidth := by
      rw [beatBytes, List.length_map]
      exact (List.length_filter_le _ _).trans (List.length_range).le
    rw [frameBytes] at ih ⊢
    rw [List.flatMap_cons, List.length_append, List.length_cons, Nat.succ_mul]
    omega

end Streams

section Tags

variable {e : PktMatch.Params}

theorem toNat_tag (v : PktMatch.Verdict e) {w : Nat} (hw : w = e.tagWidth) :
    (v.tag.setWidth w).toNat = (v.msgId.toNat * 2 + v.eom.toNat) * 4 + v.rulesetId.val := by
  subst hw
  rw [BitVec.setWidth_eq, v.toNat_tag]

theorem decodeMsgid_tag (v : PktMatch.Verdict e) {w : Nat} (hw : w = e.tagWidth) :
    decodeMsgid e.msgIdWidth (v.tag.setWidth w) = v.msgId := by
  have hEom : v.eom.toNat < 2 := v.eom.toNat_lt
  have hRuleset := v.rulesetId.isLt
  apply BitVec.eq_of_toNat_eq
  rw [decodeMsgid, BitVec.extractLsb'_toNat, toNat_tag v hw, Nat.shiftRight_eq_div_pow,
    show ((v.msgId.toNat * 2 + v.eom.toNat) * 4 + v.rulesetId.val) / 2 ^ 3 = v.msgId.toNat by omega,
    Nat.mod_eq_of_lt v.msgId.isLt]

theorem decodeIsEom_tag (v : PktMatch.Verdict e) {w : Nat} (hw : w = e.tagWidth) :
    decodeIsEom (v.tag.setWidth w) = v.eom := by
  have hRuleset := v.rulesetId.isLt
  rw [decodeIsEom, BitVec.getLsbD, toNat_tag v hw, Nat.testBit_eq_decide_div_mod_eq,
    show ((v.msgId.toNat * 2 + v.eom.toNat) * 4 + v.rulesetId.val) / 2 ^ 2 % 2 = v.eom.toNat by
      have hEom : v.eom.toNat < 2 := v.eom.toNat_lt
      omega]
  cases v.eom <;> rfl

theorem decodeCtxId_tag (v : PktMatch.Verdict e) {w : Nat} (hw : w = e.tagWidth) :
    decodeCtxId (v.tag.setWidth w) = v.rulesetId := by
  have hRuleset := v.rulesetId.isLt
  apply Fin.ext
  change (v.tag.setWidth w).toNat % 4 = v.rulesetId.val
  rw [toNat_tag v hw]
  omega

end Tags

section Runs

variable (inputs : Nat → Input p)

def departed (t : Nat) : List (Routed p.engine) := (PktMatch.trackAt (engineInputs inputs) t).done

def toPspin (t : Nat) : List (Routed p.engine) := (departed inputs t).filter Routed.port

/-- The number of services before the one whose completion the latch holds. -/
def latchedFrame (t : Nat) : Nat :=
  match HerDelivery.latched (herInputs inputs) t with
  | none => 0
  | some x => (servedOn inputs x.1).length

variable {inputs}

theorem streamedOn_eq (t : Nat) :
    streamedOn inputs t =
      (PktMatch.sentOn (engineInputs inputs) t).flatMap pspinBeats := by
  rw [PktMatch.sentOn, window_flatMap, streamedOn]
  apply window_congr
  intro u _ _
  rw [streamed, engine_runAt]
  change (Option.bind (PktMatch.sent _ (engineInputs inputs u)) _).toList = _
  cases PktMatch.sent (PktMatch.runAt (engineInputs inputs) u) (engineInputs inputs u) with
  | none => rfl
  | some x => obtain ⟨_ | _, b⟩ := x <;> rfl

variable (hPaired : ∀ t, Paired (runAt inputs t) (inputs t))
include hPaired

theorem run_sound (t : Nat) : PktMatch.Sound (PktMatch.runAt (engineInputs inputs) t) (engineInputs inputs t) := by
  rw [← engine_runAt]
  exact (hPaired t).sound

theorem run_streamed (t : Nat) :
    ∃ begun, PktMatch.Unfinished begun ∧
      streamedOn inputs t = ((toPspin inputs t).map Routed.beats).flatten ++ begun := by
  have hTracks := PktMatch.run_tracks (run_sound hPaired) t
  have hSent := PktMatch.run_sent (run_sound hPaired) t
  refine ⟨if (PktMatch.runAt (engineInputs inputs) t).matchedQ then
    (PktMatch.trackAt (engineInputs inputs) t).cur.take (PktMatch.trackAt (engineInputs inputs) t).out
      else [], ?_, ?_⟩
  · split_ifs
    · exact hTracks.unfinished_take
    · exact fun b hb => absurd hb List.not_mem_nil
  · rw [streamedOn_eq, hSent, List.flatMap_append, flatMap_frames, flatMap_pspinBeats]
    rfl

/-- The descriptors are those of the frames to PsPIN, except for a last frame whose metadata word is on offer. -/
theorem run_issued (t : Nat) :
    (issuedOn inputs t).map (fun d => (d.tag, d.len.toNat)) <+:
      (toPspin inputs t).map (fun f => (f.tag.setWidth p.alloc.tagWidth, f.size)) := by
  have hIssued : (issuedOn inputs t).map (fun d => (d.tag, d.len.toNat)) =
      (PktMatch.metaOn (engineInputs inputs) t).map (fun x => (x.1.setWidth p.alloc.tagWidth, x.2)) := by
    induction t with
    | zero => rfl
    | succ t ih =>
      rw [issuedOn, PktMatch.metaOn, window_succ _ (Nat.zero_le t), window_succ _ (Nat.zero_le t), ← issuedOn,
        ← PktMatch.metaOn, List.map_append, List.map_append, ih]
      congr 1
      have hEq := congrArg Option.toList (issued_eq (hPaired t))
      rw [← Option.toList_map, hEq, engine_runAt, ← Option.toList_map, Option.map_map]
      rfl
  have hMeta := PktMatch.run_metaOn (run_sound hPaired) t
  have hWords : (toPspin inputs t).map (fun f => (f.tag.setWidth p.alloc.tagWidth, f.size)) =
      ((toPspin inputs t).map Routed.metaWord).map (fun x => (x.1.setWidth p.alloc.tagWidth, x.2)) := by
    rw [List.map_map]
    rfl
  rw [hIssued, hWords, toPspin, departed, ← hMeta, List.map_append]
  exact List.prefix_append _ _

theorem run_service {t k : Nat} {x : Service p} (hx : (servedOn inputs t)[k]? = some x) :
    ∃ f, (toPspin inputs t)[k]? = some f ∧ x.frame = f.beats ∧ x.desc.tag = f.tag.setWidth p.alloc.tagWidth ∧
      x.desc.len.toNat = f.size := by
  obtain ⟨hDescs, hStream, hFrames⟩ := run_served inputs t
  obtain ⟨begun, hOpen, hStreamed⟩ := run_streamed hPaired t
  have hPrefix : (servedOn inputs t).map Service.frame <+: (toPspin inputs t).map Routed.beats := by
    refine PktMatch.frames_prefix_of (fun f hf => ?_) (fun f hf => ?_) hOpen ?_
    · obtain ⟨y, hy, rfl⟩ := List.mem_map.mp hf
      exact hFrames y hy
    · obtain ⟨y, hy, rfl⟩ := List.mem_map.mp hf
      exact PktMatch.run_frames (run_sound hPaired) t y (List.mem_filter.mp hy).1
    · rw [← hStreamed, hStream, ← List.flatMap_def]
      exact List.prefix_append _ _
  have hWords : ((servedOn inputs t).map Service.desc).map (fun d => (d.tag, d.len.toNat)) <+:
      (toPspin inputs t).map (fun f => (f.tag.setWidth p.alloc.tagWidth, f.size)) := by
    refine List.IsPrefix.trans ?_ (run_issued hPaired t)
    rw [hDescs, List.map_append]
    exact List.prefix_append _ _
  have hFrame := getElem?_of_prefix_of hPrefix (k := k) (a := x.frame) (by rw [List.getElem?_map, hx]; rfl)
  have hDesc := getElem?_of_prefix_of hWords (k := k) (a := (x.desc.tag, x.desc.len.toNat))
    (by rw [List.getElem?_map, List.getElem?_map, hx]; rfl)
  rw [List.getElem?_map] at hFrame hDesc
  obtain ⟨f, hf, hBeats⟩ := Option.map_eq_some_iff.mp hFrame
  rw [hf] at hDesc
  obtain ⟨hTag, hLen⟩ := Prod.mk.inj (Option.some.inj hDesc)
  exact ⟨f, hf, hBeats.symm, hTag.symm, hLen.symm⟩

theorem run_written {t k : Nat} {x : Service p} (hx : (servedOn inputs t)[k]? = some x) :
    x.written = frameBytes x.frame ∧ x.status.completion.len.toNat = (frameBytes x.frame).length := by
  obtain ⟨f, _, hFrame, _, hLen⟩ := run_service hPaired hx
  have hBytes : (frameBytes x.frame).length ≤ x.desc.len.toNat := by
    rw [hLen, Routed.size, PktMatch.Params.beatSize, ← p.keepWidth_eq, hFrame]
    exact length_frameBytes_le f.beats
  have hWritten : x.written = frameBytes x.frame := List.take_of_length_le hBytes
  refine ⟨hWritten, ?_⟩
  change (BitVec.ofNat p.alloc.lenWidth x.written.length).toNat = _
  rw [hWritten, BitVec.toNat_ofNat, Nat.mod_eq_of_lt (Nat.lt_of_le_of_lt hBytes x.desc.len.isLt)]

omit hPaired in
theorem latched_service {t b : Nat} {c : Completion p.alloc.addrWidth p.alloc.lenWidth p.alloc.tagWidth}
    (h : HerDelivery.latched (herInputs inputs) t = some (b, c)) :
    ∃ x, (servedOn inputs t)[(servedOn inputs b).length]? = some x ∧ x.status.completion = c := by
  obtain ⟨u, _, hLt, hMem⟩ := mem_window.mp (List.mem_of_getLast? h)
  obtain ⟨c', hc', hEq⟩ := List.mem_map.mp hMem
  obtain ⟨rfl, rfl⟩ := Prod.mk.inj hEq
  have hCompleted : completed ((served (runAt inputs u) (inputs u)).map Service.status) = some c' :=
    Option.mem_toList.mp hc'
  cases hServed : served (runAt inputs u) (inputs u) with
  | none =>
    rw [hServed] at hCompleted
    cases hCompleted
  | some x =>
    rw [hServed, completed, Option.map_some, Option.bind_some] at hCompleted
    split_ifs at hCompleted
    refine ⟨x, getElem?_of_prefix_of (window_mono _ hLt) ?_, Option.some.inj hCompleted⟩
    rw [window_succ _ (Nat.zero_le u), ← servedOn, hServed]
    simp

omit hPaired in
theorem latched_mono {t u : Nat} (h : t ≤ u)
    {x : Nat × Completion p.alloc.addrWidth p.alloc.lenWidth p.alloc.tagWidth}
    (hx : HerDelivery.latched (herInputs inputs) t = some x) :
    ∃ y, HerDelivery.latched (herInputs inputs) u = some y ∧ x.1 ≤ y.1 := by
  obtain ⟨k, rfl⟩ := Nat.exists_eq_add_of_le h
  induction k with
  | zero => exact ⟨x, hx, Nat.le_refl _⟩
  | succ k ih =>
    obtain ⟨y, hy, hLe⟩ := ih (Nat.le_add_right t k)
    rw [← Nat.add_assoc, HerDelivery.latched_succ]
    cases completed (herInputs inputs (t + k)).status with
    | none => exact ⟨y, hy, hLe⟩
    | some c => exact ⟨(t + k, c), rfl, (HerDelivery.latched_lt hx).le.trans (Nat.le_add_right t k)⟩

omit hPaired in
theorem latchedFrame_mono {t u : Nat} (h : t ≤ u) : latchedFrame inputs t ≤ latchedFrame inputs u := by
  rw [latchedFrame, latchedFrame]
  cases hx : HerDelivery.latched (herInputs inputs) t with
  | none => exact Nat.zero_le _
  | some x =>
    obtain ⟨y, hy, hLe⟩ := latched_mono h hx
    rw [hy]
    exact (window_mono _ hLe).length_le

end Runs

/-- The request carries what the match produced for the frame and the frame's length. -/
structure Describes (store : Store) (x : Her p.engine.msgIdWidth p.alloc.addrWidth) (f : Routed p.engine) : Prop where
  msgid : x.msgid = (PktMatch.judge f.rules f.beats).msgId
  isEom : x.isEom = (PktMatch.judge f.rules f.beats).eom
  context : x.herMeta = store.ctx (if store.ctxEnabled (PktMatch.judge f.rules f.beats).rulesetId then
    (PktMatch.judge f.rules f.beats).rulesetId else defaultCtxId)
  size : x.size.toNat = (frameBytes f.beats).length
  xferSize : x.xferSize.toNat = (frameBytes f.beats).length

theorem describes_her {store : Store} {c : Completion p.alloc.addrWidth p.alloc.lenWidth p.alloc.tagWidth}
    {f : Routed p.engine} (hTag : c.tag = f.tag.setWidth p.alloc.tagWidth)
    (hLen : c.len.toNat = (frameBytes f.beats).length) : Describes store (her p.engine.msgIdWidth store c) f := by
  have hSize : (c.len.setWidth p.alloc.addrWidth).toNat = (frameBytes f.beats).length := by
    rw [BitVec.toNat_setWidth, Nat.mod_eq_of_lt, hLen]
    exact Nat.lt_of_lt_of_le c.len.isLt (Nat.pow_le_pow_right (by decide) p.lenWidth_le)
  refine ⟨?_, ?_, ?_, hSize, hSize⟩
  · change decodeMsgid p.engine.msgIdWidth c.tag = _
    rw [hTag, Routed.tag, decodeMsgid_tag _ p.tagWidth_eq]
  · change decodeIsEom c.tag = _
    rw [hTag, Routed.tag, decodeIsEom_tag _ p.tagWidth_eq]
  · change store.ctx (store.select c.tag) = _
    rw [Store.select, hTag, Routed.tag, decodeCtxId_tag _ p.tagWidth_eq]

/-- The buffer that a service fills, and the bytes it writes there. -/
def Service.write (x : Service p) : BitVec p.alloc.addrWidth × List (BitVec 8) := (x.desc.addr, x.written)

/-- The frames to PsPIN are among those that the match engine delivered. Every HER describes one of them, its buffer
was written with exactly the bytes of that frame, and HERs follow the order of the frames. -/
theorem ingress_pairing (inputs : Nat → Input p) (hPaired : ∀ t, Paired (runAt inputs t) (inputs t)) :
    (∀ t, PktMatch.Delivered (engineInputs inputs) t (departed inputs t)) ∧
      ∃ frameOf : Nat → Nat, (∀ t u, t ≤ u → frameOf t ≤ frameOf u) ∧
        ∀ t x, herOut (runAt inputs t) (inputs t) = some x →
          ∃ f, (toPspin inputs t)[frameOf t]? = some f ∧ Describes (runAt inputs t).her.store x f ∧
            (x.addr, frameBytes f.beats) ∈ (servedOn inputs t).map Service.write := by
  refine ⟨PktMatch.run_delivered (run_sound hPaired), latchedFrame inputs, fun t u => latchedFrame_mono, ?_⟩
  intro t x hOut
  rw [herOut, HerDelivery.herOut] at hOut
  split_ifs at hOut with hSent
  have hValid : (HerDelivery.runAt (herInputs inputs) t).latch.valid = true := by
    rw [← her_runAt]
    exact (Bool.and_eq_true_iff.mp hSent).1
  obtain ⟨⟨b, c⟩, hLatched, hGen⟩ := HerDelivery.latched_of_valid hValid
  obtain ⟨y, hy, hCompletion⟩ := latched_service hLatched
  obtain ⟨f, hf, hFrame, hTag, _⟩ := run_service hPaired hy
  obtain ⟨hWritten, hLen⟩ := run_written hPaired hy
  have hHer : x = her p.engine.msgIdWidth (runAt inputs t).her.store y.status.completion := by
    rw [hCompletion, ← Option.some.inj hOut, her_runAt]
    exact congrArg _ hGen.symm
  refine ⟨f, by rw [latchedFrame, hLatched]; exact hf, ?_, ?_⟩
  · rw [hHer]
    exact describes_her hTag (by rw [hLen, hFrame])
  · rw [hHer, ← hFrame, ← hWritten]
    exact List.mem_map.mpr ⟨y, List.mem_of_getElem? hy, rfl⟩

section FourSlots

/-- Two slots of two beats and two of one beat, behind the deployed match engine. -/
def fourSlots : Params where
  engine := PktMatch.deployed
  alloc :=
    { lenWidth := 16
      tagWidth := 32
      addrWidth := 32
      bufStart := 0x1c100000
      bufSize := 384
      slot0Size := 128
      slot0Count := 2
      slot1Size := 64
      slot1Count := 2
      pktMemAlignment := 64
      depth := fun _ => 3
      latency := 3
      latency_pos := PktAlloc.deployed.latency_pos
      depth0_ge := by decide
      depth1_ge := by decide }
  tagWidth_eq := rfl
  keepWidth_eq := rfl
  lenWidth_le := by decide

def packetBeat (msgId : BitVec 16) (last : Bool) : PktMatch.Beat PktMatch.deployed :=
  PktMatch.word ((msgId.setWidth 512) <<< 352) last

/-- The beats at the input by cycles; all rulesets match, and everything is ready at all times. -/
def unhindered (beats : List (PktMatch.Beat PktMatch.deployed)) (t : Nat) : Input fourSlots where
  rx := beats[t]?
  nicReady := true
  matchConf := ⟨true, fun _ => false, fun _ _ => ⟨0, 0, 0, 0⟩⟩
  feedbackValid := false
  feedbackHerAddr := 0
  feedbackHerSize := 0
  herReady := true
  herConf := ⟨true, fun _ => zeroMeta, fun _ => true⟩
  streamReady := true
  dmaReady := true
  dmaDone := some 0

/-- Frames of two beats and of one beat, for which there are slots. The second frame waits for the engine. -/
def fitting : Nat → Input fourSlots :=
  unhindered ([packetBeat 5 false, packetBeat 5 true] ++ List.replicate 6 (packetBeat 9 true))

theorem fitting_quiet {t : Nat} (ht : 13 ≤ t) :
    PktMatch.Quiet (PktMatch.runAt (engineInputs fitting) t) (engineInputs fitting t) := by
  have hQuiet : PktMatch.Quiet (PktMatch.runAt (engineInputs fitting) 13) (engineInputs fitting 13) := by
    rw [← engine_runAt]
    exact ⟨by decide +kernel, by decide +kernel, by decide +kernel, by decide +kernel, fun _ => rfl⟩
  refine PktMatch.run_quiet hQuiet (fun u hu => ?_) ht
  exact List.getElem?_eq_none (Nat.le_trans (by decide) hu)

def metaDescribed (s : State p) (i : Input p) : Bool :=
  (PktMatch.metaSent s.engine (engineInput s i)).all (fun x => decide (x.2.toNat < 2 ^ p.alloc.lenWidth) &&
    (p.alloc.classOf x.2.toNat).any (fun c => (PktAlloc.deqOutput s.alloc c).isSome))

theorem fitting_paired (t : Nat) : Paired (runAt fitting t) (fitting t) where
  sound := by
    rw [engine_runAt]
    refine PktMatch.run_sound_of_covered (by decide +kernel) (by decide +kernel) (fun u _ hSent => ?_) t
    by_cases hu : u < 13
    · have hEarly : ∀ u < 13, (runAt fitting u).engine.packetMetaSize.toNat + 64 < 2 ^ 32 := by decide +kernel
      rw [← engine_runAt]
      exact hEarly u hu
    · rw [(fitting_quiet (Nat.le_of_not_lt hu)).sent] at hSent
      cases hSent
  described x hx := by
    have hEarly : ∀ u < 13, metaDescribed (runAt fitting u) (fitting u) = true := by decide +kernel
    by_cases ht : t < 13
    · have hCheck := hEarly t ht
      rw [metaDescribed, hx] at hCheck
      obtain ⟨hFits, hSlot⟩ := Bool.and_eq_true_iff.mp hCheck
      exact ⟨of_decide_eq_true hFits, (Option.any_eq_true _ _).mp hSlot⟩
    · have hValid := (fitting_quiet (Nat.le_of_not_lt ht)).packetMetaValid
      rw [PktMatch.metaSent, engine_runAt, hValid, Bool.and_false, if_neg Bool.false_ne_true] at hx
      cases hx

/-- The second HER comes in cycle 13. -/
theorem ingress_pairing_fitting :
    (herOut (runAt fitting 13) (fitting 13)).map (fun x => x.msgid) = some 9 ∧
      ∃ frameOf : Nat → Nat, (∀ t u, t ≤ u → frameOf t ≤ frameOf u) ∧
        ∀ t x, herOut (runAt fitting t) (fitting t) = some x →
          ∃ f, (toPspin fitting t)[frameOf t]? = some f ∧ Describes (runAt fitting t).her.store x f ∧
            (x.addr, frameBytes f.beats) ∈ (servedOn fitting t).map Service.write :=
  ⟨by decide +kernel, (ingress_pairing fitting fitting_paired).2⟩

/-- A frame of three beats, for which there is no slot, and one of one beat. -/
def oversized : Nat → Input fourSlots :=
  unhindered ([packetBeat 5 false, packetBeat 5 false] ++ List.replicate 5 (packetBeat 5 true) ++
    List.replicate 2 (packetBeat 9 true))

/-- The HER of the second frame names a buffer that was written with the first bytes of the first one. -/
theorem oversized_frame_shifts :
    ∃ x, herOut (runAt oversized 14) (oversized 14) = some x ∧ x.msgid = 9 ∧
      (servedOn oversized 14).map Service.write = [(x.addr, frameBytes [packetBeat 5 false])] ∧
      ¬ ∃ f ∈ toPspin oversized 14, Describes (runAt oversized 14).her.store x f ∧
        (x.addr, frameBytes f.beats) ∈ (servedOn oversized 14).map Service.write := by
  have hOut : (herOut (runAt oversized 14) (oversized 14)).map (fun x => (x.msgid, x.addr)) = some (9, 0x1c100100) := by
    decide +kernel
  obtain ⟨x, hx, hFields⟩ := Option.map_eq_some_iff.mp hOut
  obtain ⟨hMsgid, hAddr⟩ := Prod.mk.inj hFields
  have hWrites : (servedOn oversized 14).map Service.write = [(0x1c100100, frameBytes [packetBeat 5 false])] := by
    decide +kernel
  have hOther : ∀ f ∈ toPspin oversized 14, (PktMatch.judge f.rules f.beats).msgId = 9 →
      frameBytes f.beats ≠ frameBytes [packetBeat 5 false] := by
    decide +kernel
  refine ⟨x, hx, hMsgid, by rw [hAddr, hWrites], fun ⟨f, hf, hDescribes, hMem⟩ => ?_⟩
  rw [hWrites] at hMem
  exact hOther f hf (hDescribes.msgid.symm.trans hMsgid) (Prod.mk.inj (List.mem_singleton.mp hMem)).2

end FourSlots

end FPsPIN.IngressDatapath
