import FPsPIN.HostMem.DmaRd
import FPsPIN.Lib.Run

/-!
# Serving a read burst

As on the write path, each stage of serving a burst is a record of what the
registers hold. A stage says which burst waits for the DMA engine and which
beats are owed; a cycle moves a burst from the first to the second when its
status comes, and takes beats off the second.

The beats that are counted here have the id of their burst. The id that the
error path shows is another register, and what it holds is left to the end.
-/

namespace FPsPIN.HostMem.Rd

open Config Run

variable {p : Params}

def beats (id : AxiId) (okay : Bool) (n : Nat) : List RBeat := (clientBeats id n).map fun b => ⟨b.1, okay, b.2⟩

def answer (okay : Bool) (ar : Ar) : List RBeat := beats ar.id okay (ar.len.toNat + 1)

section Cycle

variable (s : State p) (i : Input)

def statusTaken : Bool := s.stateQ == .waitDmaFin && i.dmaStatusValid

def okay : Bool := i.dmaStatusError == 0

/-- The beat on the channel with the id of the burst that it belongs to. -/
def ownedBeat : RBeat :=
  { rbeat s with id := if s.stateQ == .finishAxiError then s.desc.tag.setWidth 8 else (rbeat s).id }

end Cycle

section Stages

structure Idle (s : State p) : Prop where
  phase : s.stateQ = .idle
  arready : s.arready = true
  descValid : s.descValid = false
  clientDescValid : s.clientDescValid = false
  client : s.client = []
  errorRvalid : s.errorRvalid = false

structure Asked (ar : Ar) (s : State p) : Prop where
  arready : s.arready = false
  clientDescValid : s.clientDescValid = false
  client : s.client = []
  errorRvalid : s.errorRvalid = false
  tag : s.desc.tag = ar.id.setWidth 16
  saved : s.savedDmaLen.toNat = 64 * (ar.len.toNat + 1)
  left : s.errorBeatsLeft.toNat = ar.len.toNat + 1

structure ToDma (ar : Ar) (s : State p) : Prop extends Asked ar s where
  phase : s.stateQ = .issueToDma ∨ s.stateQ = .waitDma
  descValid : s.descValid = true

structure DmaBusy (ar : Ar) (s : State p) : Prop extends Asked ar s where
  phase : s.stateQ = .waitDmaFin
  descValid : s.descValid = false

structure ToClient (ar : Ar) (s : State p) : Prop where
  phase : s.stateQ = .issueToClient ∨ s.stateQ = .waitClient
  arready : s.arready = false
  descValid : s.descValid = false
  clientDescValid : s.clientDescValid = true
  client : s.client = []
  errorRvalid : s.errorRvalid = false
  clientDesc : s.clientDescId = ar.id ∧ s.clientDescLen.toNat = 64 * (ar.len.toNat + 1)

/-- The client has n + 1 beats to give. -/
structure Sending (id : AxiId) (n : Nat) (s : State p) : Prop where
  phase : s.stateQ = .waitClientFin
  arready : s.arready = false
  descValid : s.descValid = false
  clientDescValid : s.clientDescValid = false
  client : s.client = clientBeats id (n + 1)
  errorRvalid : s.errorRvalid = false

/-- The counter has n + 1 beats to give. -/
structure Failing (id : AxiId) (n : Nat) (s : State p) : Prop where
  phase : s.stateQ = .finishAxiError
  arready : s.arready = false
  descValid : s.descValid = false
  clientDescValid : s.clientDescValid = false
  client : s.client = []
  errorRvalid : s.errorRvalid = true
  errorOkay : s.errorOkay = false
  left : s.errorBeatsLeft.toNat = n + 1
  tag : s.desc.tag = id.setWidth 16

end Stages

section Moves

variable {s : State p} {i : Input} {ar : Ar}

@[simp] theorem stateQ_step : (step s i).stateQ = stateD s i := by
  rw [step]
  cases hD : stateD s i <;> exact hD

theorem rTaken_of_empty (hPhase : s.stateQ ≠ .finishAxiError) (hClient : s.client = []) : rTaken s i = false := by
  rw [rTaken, rvalid, beq_eq_false_iff_ne.mpr hPhase, dataRvalid, hClient]
  rfl

theorem clientD_of_empty (hClient : s.client = []) (hTaken : clientDescTaken s i = false) : clientD s i = [] := by
  rw [clientD, hTaken, dataRvalid, hClient]
  rfl

theorem clientDescTaken_of_invalid (h : s.clientDescValid = false) : clientDescTaken s i = false := by
  rw [clientDescTaken, h, Bool.false_and]

theorem Idle.stay (h : Idle s) (hAr : i.arvalid = false) : Idle (step s i) := by
  have hD : stateD s i = .idle := by simp [stateD, h.phase, arTaken, hAr]
  have hClient := clientD_of_empty h.client (clientDescTaken_of_invalid (i := i) h.clientDescValid)
  rw [step, hD]
  exact ⟨hD, rfl, rfl, rfl, hClient, rfl⟩

theorem toNat_numBeats : (numBeats i).toNat = i.ar.len.toNat + 1 := by
  have hLen := i.ar.len.isLt
  rw [numBeats, BitVec.toNat_ofNat, Nat.mod_eq_of_lt (by omega)]

theorem toNat_dmaLen : (dmaLen i).toNat = 64 * (i.ar.len.toNat + 1) := by
  have hLen := i.ar.len.isLt
  rw [dmaLen, BitVec.toNat_ofNat, toNat_numBeats, Nat.mod_eq_of_lt (by omega)]

theorem Idle.accept (h : Idle s) (hAr : i.arvalid = true) : ToDma i.ar (step s i) := by
  have hD : stateD s i = .issueToDma := by simp [stateD, h.phase, arTaken, hAr, h.arready]
  have hClient := clientD_of_empty h.client (clientDescTaken_of_invalid (i := i) h.clientDescValid)
  rw [step, hD]
  exact ⟨⟨rfl, h.clientDescValid, hClient, h.errorRvalid, rfl, toNat_dmaLen, toNat_numBeats⟩, .inl hD, rfl⟩

theorem Asked.common (h : Asked ar s) : Asked ar (common s i) :=
  ⟨h.arready, h.clientDescValid, clientD_of_empty h.client (clientDescTaken_of_invalid h.clientDescValid),
    h.errorRvalid, h.tag, h.saved, h.left⟩

theorem ToDma.stay (h : ToDma ar s) (hReady : i.descReady = false) : ToDma ar (step s i) := by
  have hD : stateD s i = .waitDma := by
    rcases h.phase with hPhase | hPhase <;> simp [stateD, hPhase, descTaken, hReady]
  have hAsked := h.toAsked.common (i := i)
  rw [step, hD]
  refine ⟨⟨hAsked.arready, hAsked.clientDescValid, hAsked.client, hAsked.errorRvalid, hAsked.tag, hAsked.saved,
    hAsked.left⟩, .inr hD, ?_⟩
  exact (if_neg (Bool.eq_false_iff.mp hReady)).trans h.descValid

theorem ToDma.take (h : ToDma ar s) (hReady : i.descReady = true) : DmaBusy ar (step s i) := by
  have hD : stateD s i = .waitDmaFin := by
    rcases h.phase with hPhase | hPhase <;> simp [stateD, hPhase, descTaken, hReady, h.descValid]
  have hAsked := h.toAsked.common (i := i)
  rw [step, hD]
  exact ⟨⟨hAsked.arready, hAsked.clientDescValid, hAsked.client, hAsked.errorRvalid, hAsked.tag, hAsked.saved,
    hAsked.left⟩, hD, rfl⟩

theorem DmaBusy.stay (h : DmaBusy ar s) (hStatus : i.dmaStatusValid = false) : DmaBusy ar (step s i) := by
  have hD : stateD s i = .waitDmaFin := by simp [stateD, h.phase, hStatus]
  have hAsked := h.toAsked.common (i := i)
  rw [step, hD]
  exact ⟨⟨hAsked.arready, hAsked.clientDescValid, hAsked.client, hAsked.errorRvalid, hAsked.tag, hAsked.saved,
    hAsked.left⟩, hD, rfl⟩

theorem DmaBusy.succeed (h : DmaBusy ar s) (hStatus : i.dmaStatusValid = true) (hOkay : okay i = true)
    (hTag : i.dmaStatusTag = s.desc.tag) : ToClient ar (step s i) := by
  have hError : (i.dmaStatusError != 0) = false := congrArg Bool.not hOkay
  have hD : stateD s i = .issueToClient := by rw [stateD, h.phase, hStatus, hError]; rfl
  have hAsked := h.toAsked.common (i := i)
  rw [step, hD]
  refine ⟨.inl hD, hAsked.arready, h.descValid, rfl, hAsked.client, hAsked.errorRvalid, ?_, hAsked.saved⟩
  change i.dmaStatusTag.setWidth 8 = ar.id
  rw [hTag, h.tag, BitVec.setWidth_setWidth_of_le _ (by decide), BitVec.setWidth_eq]

theorem DmaBusy.fail (h : DmaBusy ar s) (hStatus : i.dmaStatusValid = true) (hOkay : okay i = false) :
    Failing ar.id ar.len.toNat (step s i) := by
  have hError : (i.dmaStatusError != 0) = true := congrArg Bool.not hOkay
  have hD : stateD s i = .finishAxiError := by rw [stateD, h.phase, hStatus, hError]; rfl
  have hAsked := h.toAsked.common (i := i)
  rw [step, hD]
  refine ⟨hD, hAsked.arready, h.descValid, hAsked.clientDescValid, hAsked.client, rfl, rfl, ?_, hAsked.tag⟩
  change (if s.errorRvalid && i.rready then _ else s.errorBeatsLeft).toNat = _
  rw [h.errorRvalid, Bool.false_and]
  exact h.left

theorem ToClient.stay (h : ToClient ar s) (hTakes : i.clientTakes = false) : ToClient ar (step s i) := by
  have hTaken : clientDescTaken s i = false := by rw [clientDescTaken, hTakes, Bool.and_false]
  have hD : stateD s i = .waitClient := by
    rcases h.phase with hPhase | hPhase <;> simp [stateD, hPhase, hTaken]
  rw [step, hD]
  refine ⟨.inr hD, h.arready, h.descValid, ?_, clientD_of_empty h.client hTaken, h.errorRvalid, h.clientDesc⟩
  exact (if_neg (Bool.eq_false_iff.mp hTakes)).trans h.clientDescValid

theorem ToClient.take (h : ToClient ar s) (hTakes : i.clientTakes = true) :
    Sending ar.id ar.len.toNat (step s i) := by
  have hTaken : clientDescTaken s i = true := by rw [clientDescTaken, hTakes, h.clientDescValid]; rfl
  have hD : stateD s i = .waitClientFin := by
    rcases h.phase with hPhase | hPhase <;> simp [stateD, hPhase, hTaken]
  have hCount : (64 * (ar.len.toNat + 1) + 63) / 64 = ar.len.toNat + 1 := by omega
  have hClient : clientD s i = clientBeats ar.id (ar.len.toNat + 1) := by
    rw [clientD, hTaken, dataRvalid, h.client, h.clientDesc.1, h.clientDesc.2, hCount]
    rfl
  rw [step, hD]
  exact ⟨hD, h.arready, h.descValid, rfl, hClient, h.errorRvalid⟩

variable {id : AxiId} {n : Nat}

theorem Sending.rTaken_eq (h : Sending id n s) : rTaken s i = (i.clientGives && i.rready) := by
  rw [rTaken, rvalid, h.phase, dataRvalid, h.client]
  rfl

theorem Sending.ownedBeat_eq (h : Sending id n s) : ownedBeat s = ⟨id, true, n == 0⟩ := by
  rw [ownedBeat, rbeat, h.phase, h.client]
  rfl

theorem Sending.clientD_eq (h : Sending id n s) :
    clientD s i = if i.clientGives && i.rready then clientBeats id n else clientBeats id (n + 1) := by
  rw [clientD, clientDescTaken_of_invalid h.clientDescValid, dataRvalid, h.client]
  exact List.append_nil _

theorem Sending.stay (h : Sending id n s) (hTaken : rTaken s i = false) : Sending id n (step s i) := by
  have hD : stateD s i = .waitClientFin := by simp [stateD, h.phase, hTaken]
  have hClient := h.clientD_eq (i := i)
  rw [← h.rTaken_eq, hTaken] at hClient
  rw [step, hD]
  exact ⟨hD, h.arready, h.descValid, rfl, hClient, h.errorRvalid⟩

theorem Sending.next (h : Sending id (n + 1) s) (hTaken : rTaken s i = true) : Sending id n (step s i) := by
  have hLast : (rbeat s).last = false := congrArg RBeat.last h.ownedBeat_eq
  have hD : stateD s i = .waitClientFin := by simp [stateD, h.phase, hLast]
  have hClient := h.clientD_eq (i := i)
  rw [← h.rTaken_eq, hTaken] at hClient
  rw [step, hD]
  exact ⟨hD, h.arready, h.descValid, rfl, hClient, h.errorRvalid⟩

theorem Sending.done (h : Sending id 0 s) (hTaken : rTaken s i = true) : Idle (step s i) := by
  have hLast : (rbeat s).last = true := congrArg RBeat.last h.ownedBeat_eq
  have hD : stateD s i = .idle := by simp [stateD, h.phase, hLast, hTaken]
  have hClient := h.clientD_eq (i := i)
  rw [← h.rTaken_eq, hTaken] at hClient
  rw [step, hD]
  exact ⟨hD, rfl, rfl, rfl, hClient, rfl⟩

theorem Failing.rTaken_eq (h : Failing id n s) : rTaken s i = i.rready := by
  rw [rTaken, rvalid, h.phase, h.errorRvalid]
  rfl

theorem Failing.ownedBeat_eq (h : Failing id n s) : ownedBeat s = ⟨id, false, n == 0⟩ := by
  have hLast : errorRlast s = (n == 0) := by
    rw [errorRlast, Bool.eq_iff_iff, beq_iff_eq, beq_iff_eq, ← BitVec.toNat_inj, h.left]
    exact Nat.succ_inj
  rw [ownedBeat, rbeat, h.phase, h.errorOkay, hLast, h.tag, BitVec.setWidth_setWidth_of_le _ (by decide),
    BitVec.setWidth_eq]
  rfl

theorem Failing.client_eq (h : Failing id n s) : clientD s i = [] :=
  clientD_of_empty h.client (clientDescTaken_of_invalid h.clientDescValid)

theorem Failing.stay (h : Failing id n s) (hTaken : rTaken s i = false) : Failing id n (step s i) := by
  have hD : stateD s i = .finishAxiError := by simp [stateD, h.phase, hTaken]
  have hReady : i.rready = false := h.rTaken_eq.symm.trans hTaken
  rw [step, hD]
  refine ⟨hD, h.arready, h.descValid, h.clientDescValid, h.client_eq, rfl, rfl, ?_, h.tag⟩
  change (if s.errorRvalid && i.rready then _ else s.errorBeatsLeft).toNat = _
  rw [hReady, Bool.and_false]
  exact h.left

theorem Failing.next (h : Failing id (n + 1) s) (hTaken : rTaken s i = true) : Failing id n (step s i) := by
  have hLast : (rbeat s).last = false := congrArg RBeat.last h.ownedBeat_eq
  have hD : stateD s i = .finishAxiError := by simp [stateD, h.phase, hLast]
  have hReady : i.rready = true := h.rTaken_eq.symm.trans hTaken
  rw [step, hD]
  refine ⟨hD, h.arready, h.descValid, h.clientDescValid, h.client_eq, rfl, rfl, ?_, h.tag⟩
  change (if s.errorRvalid && i.rready then s.errorBeatsLeft - 1 else _).toNat = _
  have hLeft := h.left
  rw [hReady, h.errorRvalid]
  change (s.errorBeatsLeft - 1).toNat = n + 1
  rw [BitVec.toNat_sub_of_le (by rw [BitVec.le_def, hLeft]; exact Nat.succ_pos _), hLeft]
  rfl

theorem Failing.done (h : Failing id 0 s) (hTaken : rTaken s i = true) : Idle (step s i) := by
  have hLast : (rbeat s).last = true := congrArg RBeat.last h.ownedBeat_eq
  have hD : stateD s i = .idle := by simp [stateD, h.phase, hLast, hTaken]
  rw [step, hD]
  exact ⟨hD, rfl, rfl, rfl, h.client_eq, rfl⟩

end Moves

end FPsPIN.HostMem.Rd
