import FPsPIN.PktMatch.Preservation
import FPsPIN.PktAlloc.Model
import FPsPIN.Ingress.HerDelivery

/-!
# The pspin_ingress_datapath block

The match engine, the packet allocator, the ingress DMA and the HER generator
as they are wired. Frames to PsPIN go to the FIFO of the DMA, their metadata
words to the allocator, whose write descriptors go to the DMA as well. The DMA
engine is modelled by what is assumed of it: it serves descriptors in order,
each takes one frame of the stream, writes at most the descriptor's length and
reports the bytes written with the descriptor's tag and address. When it does
so, and when it accepts descriptors and beats, is up to the environment.
-/

namespace FPsPIN.IngressDatapath

open Run HerGen IngressDma

structure Params where
  engine : PktMatch.Params
  alloc : PktAlloc.Params
  /-- Parameter TAG_WIDTH of both blocks. -/
  tagWidth_eq : alloc.tagWidth = engine.tagWidth
  /-- Parameter AXIS_IF_KEEP_WIDTH. -/
  keepWidth_eq : engine.keepWidth = engine.dataWidth / 8
  lenWidth_le : alloc.lenWidth ≤ alloc.addrWidth

def beatBytes {e : PktMatch.Params} (b : PktMatch.Beat e) : List (BitVec 8) :=
  ((List.range e.keepWidth).filter (fun j => b.tkeep.getLsbD j)).map (fun j => b.tdata.extractLsb' (8 * j) 8)

def frameBytes {e : PktMatch.Params} (frame : List (PktMatch.Beat e)) : List (BitVec 8) := frame.flatMap beatBytes

/-- The first frame of a stream and what follows it. -/
def firstFrame {e : PktMatch.Params} :
    List (PktMatch.Beat e) → Option (List (PktMatch.Beat e) × List (PktMatch.Beat e))
  | [] => none
  | b :: beats => if b.tlast then some ([b], beats) else (firstFrame beats).map (fun x => (b :: x.1, x.2))

variable {p : Params}

abbrev Desc (p : Params) := WriteDesc p.alloc.addrWidth p.alloc.lenWidth p.alloc.tagWidth

/-- A descriptor that the DMA engine has served, with its frame and the error code reported. -/
structure Service (p : Params) where
  desc : Desc p
  frame : List (PktMatch.Beat p.engine)
  error : BitVec 4

/-- The bytes written; the rest of the frame is discarded. -/
def Service.written (x : Service p) : List (BitVec 8) := (frameBytes x.frame).take x.desc.len.toNat

def Service.status (x : Service p) : DescStatus p.alloc.addrWidth p.alloc.lenWidth p.alloc.tagWidth :=
  ⟨⟨x.desc.addr, BitVec.ofNat _ x.written.length, x.desc.tag⟩, x.error⟩

/-- Descriptors accepted and beats received that are not served yet. -/
structure Dma (p : Params) where
  descs : List (Desc p)
  stream : List (PktMatch.Beat p.engine)

/-- What the DMA engine serves if it is its time, and what it keeps. -/
def Dma.serve (dma : Dma p) (done : Option (BitVec 4)) : Option (Service p) × Dma p :=
  match done, dma.descs, firstFrame dma.stream with
  | some error, desc :: descs, some (frame, stream) => (some ⟨desc, frame, error⟩, ⟨descs, stream⟩)
  | _, _, _ => (none, dma)

structure State (p : Params) where
  engine : PktMatch.State p.engine
  alloc : PktAlloc.State p.alloc
  dma : Dma p
  her : HerDelivery.State p.alloc.addrWidth p.alloc.lenWidth p.alloc.tagWidth

structure Input (p : Params) where
  rx : Option (PktMatch.Beat p.engine)
  nicReady : Bool
  matchConf : PktMatch.MatchConf
  feedbackValid : Bool
  feedbackHerAddr : BitVec p.alloc.addrWidth
  feedbackHerSize : BitVec p.alloc.lenWidth
  herReady : Bool
  herConf : Conf
  /-- The DMA's FIFO accepts a beat, and the DMA engine a descriptor. -/
  streamReady : Bool
  dmaReady : Bool
  /-- The DMA engine serves a descriptor, with this error code. -/
  dmaDone : Option (BitVec 4)

def init (p : Params) (matchConf : PktMatch.MatchConf) : State p :=
  ⟨PktMatch.init p.engine matchConf, PktAlloc.init p.alloc, ⟨[], []⟩, HerDelivery.init⟩

section Wires

variable (s : State p) (i : Input p)

def writeReady : Bool := writeDescReady i.dmaReady (genReady s.her.store i.herReady)

/-- The tag and the low LEN_WIDTH bits of the size go to the allocator. -/
def allocInput : PktAlloc.Input p.alloc where
  pktTag := (PktMatch.packetMetaTag s.engine).setWidth p.alloc.tagWidth
  pktLen := s.engine.packetMetaSize.setWidth p.alloc.lenWidth
  pktValid := s.engine.packetMetaValid
  feedbackValid := i.feedbackValid
  feedbackHerAddr := i.feedbackHerAddr
  feedbackHerSize := i.feedbackHerSize
  writeReady := writeReady s i

def engineInput : PktMatch.Input p.engine where
  rx := i.rx
  nicReady := i.nicReady
  pspinReady := i.streamReady
  conf := i.matchConf
  metaReady := PktAlloc.pktReady s.alloc (allocInput s i)

def served : Option (Service p) := (s.dma.serve i.dmaDone).1

def herInput : HerDelivery.Input p.alloc.addrWidth p.alloc.lenWidth p.alloc.tagWidth where
  status := (served s i).map Service.status
  herReady := i.herReady
  conf := i.herConf
  writeDesc := (PktAlloc.writeDesc s.alloc (allocInput s i)).map (fun x => ⟨x.1, x.2.1, x.2.2⟩)
  dmaReady := i.dmaReady

def issued : Option (Desc p) := HerDelivery.accepted s.her (herInput s i)

def streamed : Option (PktMatch.Beat p.engine) :=
  (PktMatch.sent s.engine (engineInput s i)).bind (fun x => if x.1 then some x.2 else none)

def herOut : Option (Her p.engine.msgIdWidth p.alloc.addrWidth) :=
  HerDelivery.herOut s.her (herInput s i) p.engine.msgIdWidth

def step : State p where
  engine := PktMatch.step s.engine (engineInput s i)
  alloc := PktAlloc.step s.alloc (allocInput s i)
  dma :=
    let dma := (s.dma.serve i.dmaDone).2
    ⟨dma.descs ++ (issued s i).toList, dma.stream ++ (streamed s i).toList⟩
  her := HerDelivery.step s.her (herInput s i)

end Wires

section Dma

theorem firstFrame_eq_some {e : PktMatch.Params} {beats frame rest : List (PktMatch.Beat e)}
    (h : firstFrame beats = some (frame, rest)) : PktMatch.IsFrame frame ∧ beats = frame ++ rest := by
  induction beats generalizing frame with
  | nil => cases h
  | cons b beats ih =>
    rw [firstFrame] at h
    split_ifs at h with hLast
    · obtain ⟨rfl, rfl⟩ := Prod.mk.inj (Option.some.inj h)
      exact ⟨⟨[], b, rfl, fun x hx => absurd hx List.not_mem_nil, hLast⟩, rfl⟩
    · obtain ⟨⟨tail, rest'⟩, hTail, hEq⟩ := Option.map_eq_some_iff.mp h
      obtain ⟨rfl, rfl⟩ := Prod.mk.inj hEq
      obtain ⟨⟨body, last, rfl, hBody, hEnd⟩, rfl⟩ := ih hTail
      refine ⟨⟨b :: body, last, rfl, ?_, hEnd⟩, rfl⟩
      intro x hx
      rcases List.mem_cons.mp hx with rfl | hx
      · exact Bool.not_eq_true _ |>.mp hLast
      · exact hBody x hx

theorem Dma.serve_eq (dma : Dma p) (done : Option (BitVec 4)) :
    dma.descs = (dma.serve done).1.toList.map Service.desc ++ (dma.serve done).2.descs ∧
      dma.stream = (dma.serve done).1.toList.flatMap Service.frame ++ (dma.serve done).2.stream ∧
      ∀ x, (dma.serve done).1 = some x → PktMatch.IsFrame x.frame := by
  cases done with
  | none => exact ⟨rfl, rfl, fun x hx => by cases hx⟩
  | some error =>
    cases hDescs : dma.descs with
    | nil => simp [Dma.serve, hDescs]
    | cons desc descs =>
      cases hFirst : firstFrame dma.stream with
      | none => simp [Dma.serve, hDescs, hFirst]
      | some x =>
        obtain ⟨frame, stream⟩ := x
        obtain ⟨hFrame, hStream⟩ := firstFrame_eq_some hFirst
        have hServe : dma.serve (some error) = (some ⟨desc, frame, error⟩, ⟨descs, stream⟩) := by
          simp [Dma.serve, hDescs, hFirst]
        rw [hServe]
        refine ⟨rfl, by simpa using hStream, fun x hx => ?_⟩
        rw [← Option.some.inj hx]
        exact hFrame

end Dma

section Runs

variable (inputs : Nat → Input p)

def runAt : Nat → State p := stateAt step (init p (inputs 0).matchConf) inputs

def engineInputs (t : Nat) : PktMatch.Input p.engine := engineInput (runAt inputs t) (inputs t)

def herInputs (t : Nat) : HerDelivery.Input p.alloc.addrWidth p.alloc.lenWidth p.alloc.tagWidth :=
  herInput (runAt inputs t) (inputs t)

def issuedOn : Nat → List (Desc p) := window (fun t => (issued (runAt inputs t) (inputs t)).toList) 0

def streamedOn : Nat → List (PktMatch.Beat p.engine) :=
  window (fun t => (streamed (runAt inputs t) (inputs t)).toList) 0

def servedOn : Nat → List (Service p) := window (fun t => (served (runAt inputs t) (inputs t)).toList) 0

variable {inputs}

theorem engine_runAt (t : Nat) : (runAt inputs t).engine = PktMatch.runAt (engineInputs inputs) t := by
  induction t with
  | zero => rfl
  | succ t ih =>
    change PktMatch.step (runAt inputs t).engine (engineInputs inputs t) = _
    rw [ih]
    rfl

theorem her_runAt (t : Nat) : (runAt inputs t).her = HerDelivery.runAt (herInputs inputs) t := by
  induction t with
  | zero => rfl
  | succ t ih =>
    change HerDelivery.step (runAt inputs t).her (herInputs inputs t) = _
    rw [ih]
    rfl

/-- The DMA engine serves the issued descriptors with the streamed frames, both in order. -/
theorem run_served (inputs : Nat → Input p) (t : Nat) :
    issuedOn inputs t = (servedOn inputs t).map Service.desc ++ (runAt inputs t).dma.descs ∧
      streamedOn inputs t = (servedOn inputs t).flatMap Service.frame ++ (runAt inputs t).dma.stream ∧
      ∀ x ∈ servedOn inputs t, PktMatch.IsFrame x.frame := by
  induction t with
  | zero => exact ⟨rfl, rfl, fun x hx => absurd hx List.not_mem_nil⟩
  | succ t ih =>
    obtain ⟨hDescs, hStream, hFrames⟩ := ih
    obtain ⟨hServeDescs, hServeStream, hServeFrame⟩ := (runAt inputs t).dma.serve_eq (inputs t).dmaDone
    rw [issuedOn, streamedOn, servedOn, window_succ _ (Nat.zero_le t), window_succ _ (Nat.zero_le t),
      window_succ _ (Nat.zero_le t), ← issuedOn, ← streamedOn, ← servedOn, hDescs, hStream, hServeDescs,
      hServeStream,
      List.map_append, List.flatMap_append]
    refine ⟨?_, ?_, fun x hx => ?_⟩
    · simp only [List.append_assoc]
      rfl
    · simp only [List.append_assoc]
      rfl
    · rcases List.mem_append.mp hx with hx | hx
      · exact hFrames x hx
      · exact hServeFrame x (Option.mem_toList.mp hx)

end Runs

end FPsPIN.IngressDatapath
