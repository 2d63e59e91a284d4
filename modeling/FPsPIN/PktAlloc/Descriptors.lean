import FPsPIN.PktAlloc.Model

/-!
# One descriptor per accepted packet

The ready signal looks at the free counters, the descriptor at the output of a
free FIFO, which shows a returned slot only some cycles later. A ledger
relates the two: the counter is the number of words in the FIFO, plus the
feedbacks counted before the fill phase was over, less the packets accepted
without a slot, all in 32 bits. The words that the output does not show yet are
those pushed in the last cycles, so a packet gets its slot if the counter
exceeds their number.
-/

namespace FPsPIN.PktAlloc

open LatencyFifo Run

variable {p : Params}

section Ledger

variable (s : State p) (i : Input p)

/-- A packet is accepted although no slot of its class is at the output. -/
def lost (c : SlotClass) : Bool := deqReady s i c && (deqOutput s c).isNone

/-- A feedback is counted while the fill phase owns the free FIFOs. -/
def early (c : SlotClass) : Bool := !s.initialisedQ && freeClass s i == some c

theorem enqReady_of_freeClass {c : SlotClass} (h : freeClass s i = some c) (d : SlotClass) :
    enqReady s d = true := by
  have hTaken : feedbackTaken s i = true := by
    by_contra hNot
    simp [freeClass, hNot] at h
  simp only [feedbackTaken, feedbackReady, Bool.and_eq_true] at hTaken
  cases d
  · exact hTaken.2.1
  · exact hTaken.2.2

theorem ledger_step (c : SlotClass) :
    ((freeCountD s i c).toNat + (lost s i c).toNat + (s.pool c).fifo.length) % 2 ^ 32 =
      ((s.pool c).freeCountQ.toNat + (poolD s i c).fifo.length + (early s i c).toNat) % 2 ^ 32 := by
  have hLength := length_poolD s i c
  have hLost : (deqReady s i c).toNat = (deqReady s i c && (deqOutput s c).isSome).toNat + (lost s i c).toNat := by
    rw [lost]
    cases deqReady s i c <;> cases deqOutput s c <;> rfl
  have hCount : (freeCountD s i c).toNat = ((fillCount s c).toNat + (2 ^ 32 - (deqReady s i c).toNat) +
      (freeClass s i == some c).toNat) % 2 ^ 32 := by
    rw [freeCountD]
    cases deqReady s i c <;> cases freeClass s i == some c <;> simp [BitVec.toNat_add, BitVec.toNat_sub] <;> omega
  cases hInit : s.initialisedQ with
  | true =>
    have hFill : (fillCount s c).toNat = (s.pool c).freeCountQ.toNat := by simp [fillCount, initEnqValid, hInit]
    have hPush : (enqReady s c && (enqData s i c).isSome).toNat = (freeClass s i == some c).toNat := by
      rw [enqData, hInit]
      cases hFree : freeClass s i == some c with
      | false => simp
      | true => simp [enqReady_of_freeClass s i (eq_of_beq hFree)]
    have hEarly : (early s i c).toNat = 0 := by simp [early, hInit]
    have hDeq := Bool.toNat_le (deqReady s i c)
    omega
  | false =>
    have hDeq : (deqReady s i c).toNat = 0 := by rw [deqReady_uninitialised s i hInit]; rfl
    have hFill : (fillCount s c).toNat =
        ((s.pool c).freeCountQ.toNat + (enqReady s c && (enqData s i c).isSome).toNat) % 2 ^ 32 := by
      have hLt := (s.pool c).freeCountQ.isLt
      rw [fillCount, enqData, hInit]
      cases initEnqValid s c <;> cases enqReady s c <;> simp <;> omega
    have hEarly : (early s i c).toNat = (freeClass s i == some c).toNat := by simp [early, hInit]
    omega

end Ledger

section Runs

def runAt (inputs : Nat → Input p) : Nat → State p := stateAt step (init p) inputs

variable (inputs : Nat → Input p)

/-- The slots that are pushed into a free FIFO, by the fill phase or by a feedback. -/
def enqAt (c : SlotClass) (t : Nat) : List (BitVec p.addrWidth) :=
  if enqReady (runAt inputs t) c then (enqData (runAt inputs t) (inputs t) c).toList else []

/-- The slots pushed in the last latency - 1 cycles, too late for the output of cycle t. -/
def lately (c : SlotClass) (t : Nat) : List (BitVec p.addrWidth) := window (enqAt inputs c) (t - (p.latency - 1)) t

def lostBy (c : SlotClass) : Nat → List Nat :=
  window (fun t => if lost (runAt inputs t) (inputs t) c then [t] else []) 0

def earlyBy (c : SlotClass) : Nat → List Nat :=
  window (fun t => if early (runAt inputs t) (inputs t) c then [t] else []) 0

/-- An accepted packet that is not too big issues one descriptor with its length and tag. -/
def Described (t : Nat) : Prop :=
  pktAccepted (runAt inputs t) (inputs t) = true → (inputs t).pktLen.toNat ≤ p.size .slot0 →
    (inputs t).writeReady = true ∧
      ∃ addr, writeDesc (runAt inputs t) (inputs t) = some (addr, (inputs t).pktLen, (inputs t).pktTag)

/-- After the fill phase the counters count the words in the FIFOs. -/
def Counted (t : Nat) : Prop :=
  (runAt inputs t).initialisedQ = true →
    ∀ c, ((runAt inputs t).pool c).freeCountQ.toNat = ((runAt inputs t).pool c).fifo.length

variable {inputs}

theorem length_lostBy_succ (c : SlotClass) (t : Nat) :
    (lostBy inputs c (t + 1)).length = (lostBy inputs c t).length + (lost (runAt inputs t) (inputs t) c).toNat := by
  rw [lostBy, window_succ _ (Nat.zero_le t), List.length_append]
  cases lost (runAt inputs t) (inputs t) c <;> rfl

theorem length_earlyBy_succ (c : SlotClass) (t : Nat) :
    (earlyBy inputs c (t + 1)).length =
      (earlyBy inputs c t).length + (early (runAt inputs t) (inputs t) c).toNat := by
  rw [earlyBy, window_succ _ (Nat.zero_le t), List.length_append]
  cases early (runAt inputs t) (inputs t) c <;> rfl

theorem runAt_pool_succ (t : Nat) (c : SlotClass) :
    (runAt inputs (t + 1)).pool c = poolD (runAt inputs t) (inputs t) c :=
  step_pool _ _ _

theorem initialised_succ {t : Nat} (h : (runAt inputs t).initialisedQ = true) :
    (runAt inputs (t + 1)).initialisedQ = true := by
  change initialisedD (runAt inputs t) = true
  rw [initialisedD, h, Bool.true_or]

theorem run_ledger (inputs : Nat → Input p) (c : SlotClass) (t : Nat) :
    (((runAt inputs t).pool c).freeCountQ.toNat + (lostBy inputs c t).length) % 2 ^ 32 =
      (((runAt inputs t).pool c).fifo.length + (earlyBy inputs c t).length) % 2 ^ 32 := by
  induction t with
  | zero => cases c <;> rfl
  | succ t ih =>
    have hStep := ledger_step (runAt inputs t) (inputs t) c
    rw [length_lostBy_succ, length_earlyBy_succ, runAt_pool_succ]
    change ((freeCountD (runAt inputs t) (inputs t) c).toNat + _) % _ = _
    omega

theorem run_length_le (inputs : Nat → Input p) (c : SlotClass) (t : Nat) :
    ((runAt inputs t).pool c).fifo.length ≤ p.depth c := by
  induction t with
  | zero => cases c <;> exact Nat.zero_le _
  | succ t ih =>
    have hStep := length_poolD (runAt inputs t) (inputs t) c
    rw [runAt_pool_succ]
    cases hReady : enqReady (runAt inputs t) c with
    | false =>
      rw [hReady, Bool.false_and, Bool.toNat_false] at hStep
      omega
    | true =>
      have hRoom : ((runAt inputs t).pool c).fifo.length < p.depth c := of_decide_eq_true hReady
      have hOne := Bool.toNat_le (enqReady (runAt inputs t) c && (enqData (runAt inputs t) (inputs t) c).isSome)
      omega

theorem early_initialised {t : Nat} (h : (runAt inputs t).initialisedQ = true) (c : SlotClass) :
    early (runAt inputs t) (inputs t) c = false := by
  rw [early, h, Bool.not_true, Bool.false_and]

theorem deqReady_iff {t : Nat} {c : SlotClass} :
    deqReady (runAt inputs t) (inputs t) c = true ↔ allocClass (runAt inputs t) (inputs t) = some c :=
  beq_iff_eq

theorem initialised_of_deqReady {t : Nat} {c : SlotClass} (h : deqReady (runAt inputs t) (inputs t) c = true) :
    (runAt inputs t).initialisedQ = true := by
  by_contra hNot
  rw [deqReady_uninitialised _ _ (Bool.not_eq_true _ ▸ hNot)] at h
  cases h

theorem deqOutput_isSome_iff (c : SlotClass) (t : Nat) :
    (deqOutput (runAt inputs t) c).isSome = true ↔
      (lately inputs c t).length < ((runAt inputs t).pool c).fifo.length := by
  have hStart : ((runAt inputs 0).pool c).fifo = [] := by cases c <;> rfl
  have hStep : ∀ u, ((runAt inputs (u + 1)).pool c).fifo = LatencyFifo.step (p.depth c) p.latency
      ((runAt inputs u).pool c).fifo (enqData (runAt inputs u) (inputs u) c)
      (deqReady (runAt inputs u) (inputs u) c) :=
    fun u => congrArg Pool.fifo (runAt_pool_succ u c)
  have hAged := aged_run (q := fun u => ((runAt inputs u).pool c).fifo) hStart hStep t
  have hYoung := young_run (q := fun u => ((runAt inputs u).pool c).fifo) hStart hStep
    (Nat.sub_lt p.latency_pos Nat.one_pos) t
  rw [deqOutput, hAged.output_isSome_iff p.latency_pos, hYoung]
  rfl

theorem lost_iff {t : Nat} (hCounted : Counted inputs t) (c : SlotClass) :
    lost (runAt inputs t) (inputs t) c = true ↔ allocClass (runAt inputs t) (inputs t) = some c ∧
      ((runAt inputs t).pool c).freeCountQ.toNat ≤ (lately inputs c t).length := by
  rw [lost, Bool.and_eq_true, ← deqReady_iff]
  refine and_congr_right fun hReady => ?_
  rw [hCounted (initialised_of_deqReady hReady) c, ← Nat.not_lt, ← deqOutput_isSome_iff, Bool.not_eq_true,
    Option.isSome_eq_false_iff]

theorem described_of_not_lost {t : Nat} (h : ∀ c, lost (runAt inputs t) (inputs t) c = false) :
    Described inputs t := by
  intro hAccepted hLen
  have hReady : (inputs t).writeReady = true := by
    simp only [pktAccepted, pktReady, Bool.and_eq_true] at hAccepted
    exact hAccepted.2.1.1.1
  refine ⟨hReady, ?_⟩
  obtain ⟨c, hClass⟩ : ∃ c, p.classOf (inputs t).pktLen.toNat = some c := by
    rw [Params.classOf]
    split_ifs with hSlot0 hSlot1
    · exact ⟨_, rfl⟩
    · exact ⟨_, rfl⟩
    · omega
  have hAlloc : allocClass (runAt inputs t) (inputs t) = some c := by rw [allocClass, if_pos hAccepted, hClass]
  have hVisible := h c
  rw [lost, deqReady, hAlloc, beq_self_eq_true, Bool.true_and] at hVisible
  cases hAddr : deqOutput (runAt inputs t) c with
  | none =>
    rw [hAddr] at hVisible
    cases hVisible
  | some addr => exact ⟨addr, by rw [writeDesc, hAlloc, Option.bind_some, hAddr, Option.map_some]⟩

theorem not_lost_of_counted {t : Nat} (hNow : Counted inputs t) (hNext : Counted inputs (t + 1)) (c : SlotClass) :
    lost (runAt inputs t) (inputs t) c = false := by
  by_contra hLost
  rw [Bool.not_eq_false] at hLost
  have hInit := initialised_of_deqReady (Bool.and_eq_true_iff.mp hLost).1
  have hStep := ledger_step (runAt inputs t) (inputs t) c
  have hNext := hNext (initialised_succ hInit) c
  rw [runAt_pool_succ] at hNext
  change (freeCountD (runAt inputs t) (inputs t) c).toNat = _ at hNext
  rw [hLost, early_initialised hInit, hNext, hNow hInit c, Bool.toNat_true, Bool.toNat_false] at hStep
  omega

theorem lostBy_eq_nil {c : SlotClass} {t : Nat} (h : ∀ u < t, lost (runAt inputs u) (inputs u) c = false) :
    lostBy inputs c t = [] :=
  window_eq_nil fun u _ hu => by rw [h u hu]; rfl

theorem counted_iff (hDepth : ∀ c, p.depth c < 2 ^ 32) {t : Nat}
    (hLost : ∀ u < t, ∀ c, lost (runAt inputs u) (inputs u) c = false) :
    Counted inputs t ↔ ((runAt inputs t).initialisedQ = true → ∀ c, 2 ^ 32 ∣ (earlyBy inputs c t).length) := by
  refine forall_congr' fun _ => forall_congr' fun c => ?_
  have hLedger := run_ledger inputs c t
  have hBound := run_length_le inputs c t
  have hFits := hDepth c
  have hCount := ((runAt inputs t).pool c).freeCountQ.isLt
  rw [lostBy_eq_nil fun u hu => hLost u hu c, List.length_nil] at hLedger
  constructor <;> intro h <;> omega

/-- Every accepted packet gets its descriptor and the counters stay true exactly when at each accepted packet the
counter of its class exceeds the slots pushed lately, and the feedbacks counted during the fill phase, if any, have
wrapped the counters around. -/
theorem described_counted_iff (hDepth : ∀ c, p.depth c < 2 ^ 32) :
    (∀ t, Described inputs t ∧ Counted inputs t) ↔
      (∀ t c, allocClass (runAt inputs t) (inputs t) = some c →
        (lately inputs c t).length < ((runAt inputs t).pool c).freeCountQ.toNat) ∧
        ∀ t, (runAt inputs t).initialisedQ = true → ∀ c, 2 ^ 32 ∣ (earlyBy inputs c t).length := by
  constructor
  · intro hAll
    have hLost : ∀ t c, lost (runAt inputs t) (inputs t) c = false :=
      fun t => not_lost_of_counted (hAll t).2 (hAll (t + 1)).2
    refine ⟨fun t c hAlloc => ?_, fun t => (counted_iff hDepth fun u _ => hLost u).mp (hAll t).2⟩
    by_contra hFew
    have hGone := (lost_iff (hAll t).2 c).mpr ⟨hAlloc, Nat.le_of_not_lt hFew⟩
    rw [hLost t c] at hGone
    cases hGone
  · rintro ⟨hEnough, hEarly⟩
    -- What was not lost before a cycle makes the counters true in it, and true counters lose nothing.
    have hLost : ∀ t, ∀ u < t, ∀ c, lost (runAt inputs u) (inputs u) c = false := by
      intro t
      induction t with
      | zero => exact fun u hu => absurd hu (Nat.not_lt_zero u)
      | succ t ih =>
        intro u hu c
        rcases Nat.lt_succ_iff_lt_or_eq.mp hu with hu | rfl
        · exact ih u hu c
        · rw [← Bool.not_eq_true, lost_iff ((counted_iff hDepth ih).mpr (hEarly u))]
          rintro ⟨hAlloc, hFew⟩
          exact absurd (hEnough u c hAlloc) (Nat.not_lt_of_le hFew)
    intro t
    exact ⟨described_of_not_lost (hLost (t + 1) t (Nat.lt_succ_self t)),
      (counted_iff hDepth (hLost t)).mpr (hEarly t)⟩

end Runs

section ReturnedSlot

def tinyParams : Params where
  lenWidth := 16
  tagWidth := 8
  addrWidth := 32
  bufStart := 0x1c100000
  bufSize := 2048
  slot0Size := 1536
  slot0Count := 1
  slot1Size := 128
  slot1Count := 1
  pktMemAlignment := 64
  depth _ := 3
  latency := 3
  latency_pos := deployed.latency_pos
  depth0_ge := by decide
  depth1_ge := by decide

/-- A packet takes the only small slot in cycle 4, the slot comes back in cycle 6, and another packet
arrives in the given cycle. -/
def secondPacketIn (second t : Nat) : Input tinyParams where
  pktTag := if t = 4 then (1 : BitVec 8) else (2 : BitVec 8)
  pktLen := (64 : BitVec 16)
  pktValid := t == 4 || t == second
  feedbackValid := t == 6
  feedbackHerAddr := (0x1c100600 : BitVec 32)
  feedbackHerSize := (60 : BitVec 16)
  writeReady := true

/-- One cycle after its slot was returned the pool counts one slot but shows none: the packet is
accepted, no descriptor is issued and the counter no longer counts the slot. -/
theorem returned_slot_lost :
    pktAccepted (runAt (secondPacketIn 7) 7) (secondPacketIn 7 7) = true ∧
      (secondPacketIn 7 7).pktLen.toNat ≤ tinyParams.size .slot0 ∧
      writeDesc (runAt (secondPacketIn 7) 7) (secondPacketIn 7 7) = none ∧
      (runAt (secondPacketIn 7) 8).initialisedQ = true ∧
      (runAt (secondPacketIn 7) 8).slot1.freeCountQ.toNat = 0 ∧
      (runAt (secondPacketIn 7) 8).slot1.fifo.length = 1 := by
  decide +kernel

theorem described_counted_patient :
    pktAccepted (runAt (secondPacketIn 9) 9) (secondPacketIn 9 9) = true ∧
      ∀ t, Described (secondPacketIn 9) t ∧ Counted (secondPacketIn 9) t := by
  refine ⟨by decide +kernel, (described_counted_iff (fun c => by cases c <;> decide)).mpr ⟨?_, ?_⟩⟩
  · intro t c hAlloc
    by_cases ht : t = 4 ∨ t = 9
    · rcases ht with rfl | rfl <;> cases c <;> decide +kernel
    · have hIdle : (secondPacketIn 9 t).pktValid = false := by simpa [secondPacketIn] using ht
      simp [allocClass, pktAccepted, hIdle] at hAlloc
  · intro t _ c
    -- The only feedback comes in cycle 6, when the pools have long been filled.
    have hNone : earlyBy (secondPacketIn 9) c t = [] := by
      refine window_eq_nil (fun u _ _ => ?_)
      by_cases hu : u = 6
      · subst hu
        rw [early_initialised (by decide +kernel)]
        rfl
      · have hIdle : (secondPacketIn 9 u).feedbackValid = false := by simpa [secondPacketIn] using hu
        simp [early, freeClass, feedbackTaken, hIdle]
    rw [hNone]
    exact Nat.dvd_zero _

end ReturnedSlot

end FPsPIN.PktAlloc
