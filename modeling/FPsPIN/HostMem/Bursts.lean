import FPsPIN.HostMem.DmaWr

/-!
# From bursts to descriptors

The state machine serves one burst after another. Each stage of serving a burst
is a record of what the registers hold, and each stage has one lemma that says
which handshakes can happen in it and which stage comes next. The run lemma
then follows the stream of bursts: one descriptor for each, in order.
-/

namespace FPsPIN.HostMem

open Bytes Config Run

variable {p : Params}

/-- A burst with as many beats as its address says, the last one marked. -/
structure Burst where
  aw : Aw
  beats : List Beat
  length_eq : beats.length = aw.len.toNat + 1
  last_iff : ∀ (j : Nat) (h : j < beats.length), beats[j].last = true ↔ j + 1 = beats.length

namespace Burst

variable (b : Burst)

theorem ne_nil : b.beats ≠ [] := by
  intro hNil
  have hLength := b.length_eq
  rw [hNil] at hLength
  cases hLength

def first : Beat := b.beats.head b.ne_nil

def final : Beat := b.beats.getLast b.ne_nil

def front : HostAddr := (lzFront b.first.strb).setWidth 64

def back : HostAddr := (lzBack b.final.strb).setWidth 64

def size : DmaLen := BitVec.ofNat 16 (64 * b.beats.length)

def desc (p : Params) : Desc p where
  dmaAddr := b.aw.addr + b.front
  ramAddr := b.front.setWidth _
  len := (b.size.setWidth 64 - b.front - b.back).setWidth 16
  tag := b.aw.id.setWidth 16

/-- RAM after the first beats of the burst. -/
def stored (ram : RamAddr p → Byte) : Nat → RamAddr p → Byte
  | 0 => ram
  | j + 1 =>
    match b.beats[j]? with
    | some beat => writeBeat (BitVec.ofNat _ (64 * j)) beat (stored ram j)
    | none => stored ram j

theorem size_sub_one : (b.size.toNat - 1) / 64 + 1 = b.beats.length := by
  have hLen := b.aw.len.isLt
  have hLength := b.length_eq
  rw [size, BitVec.toNat_ofNat, Nat.mod_eq_of_lt (by omega)]
  omega

end Burst

section Stages

structure Idle (s : State p) : Prop where
  phase : s.stateQ = .idle
  awready : s.awready = true
  clientDescValid : s.clientDescValid = false
  client : s.client.phase = .idle
  statuses : s.client.statuses = []
  descValid : s.descValid = false
  frontOffSet : s.frontOffSet = false

/-- The burst's address is saved and offered to the client. -/
structure ToClient (b : Burst) (s : State p) : Prop where
  phase : s.stateQ = .issueToClient ∨ s.stateQ = .waitClient
  awready : s.awready = false
  clientDescValid : s.clientDescValid = true
  client : s.client.phase = .idle
  statuses : s.client.statuses = []
  descValid : s.descValid = false
  frontOffSet : s.frontOffSet = false
  saved : s.savedDmaAddr = b.aw.addr ∧ s.savedDmaLen = b.size
  clientDesc : s.clientDescTag = b.aw.id ∧ s.clientDescLen = b.size

/-- The client has stored the first j beats, and more are to come. -/
structure Storing (b : Burst) (j : Nat) (s : State p) : Prop where
  phase : s.stateQ = .waitClientFin
  awready : s.awready = false
  clientDescValid : s.clientDescValid = false
  client : s.client.phase = .write
  statuses : s.client.statuses = []
  descValid : s.descValid = false
  saved : s.savedDmaAddr = b.aw.addr ∧ s.savedDmaLen = b.size
  tag : s.client.tag = b.aw.id
  addr : s.client.addr = BitVec.ofNat _ (64 * j)
  left : s.client.cycleCount + j + 1 = b.beats.length
  frontOffSet : s.frontOffSet = decide (0 < j)
  frontOff : 0 < j → s.frontOff = b.front
  ram : ∃ ram, s.ram = b.stored ram j

/-- All beats are stored and the client has not reported yet. -/
structure Stored (b : Burst) (s : State p) : Prop where
  phase : s.stateQ = .waitClientFin
  awready : s.awready = false
  clientDescValid : s.clientDescValid = false
  client : s.client.phase = .idle
  statuses : s.client.statuses = [b.aw.id]
  descValid : s.descValid = false
  saved : s.savedDmaAddr = b.aw.addr ∧ s.savedDmaLen = b.size
  offsets : s.frontOff = b.front ∧ s.backOff = b.back
  ram : ∃ ram, s.ram = b.stored ram b.beats.length

/-- The burst's descriptor is in its registers and its bytes are in the RAM. -/
structure Loaded (b : Burst) (s : State p) : Prop where
  awready : s.awready = false
  clientDescValid : s.clientDescValid = false
  client : s.client.phase = .idle
  statuses : s.client.statuses = []
  desc : s.desc = b.desc p
  ram : ∃ ram, s.ram = b.stored ram b.beats.length

structure ToDma (b : Burst) (s : State p) : Prop extends Loaded b s where
  phase : s.stateQ = .issueToDma ∨ s.stateQ = .waitDma
  descValid : s.descValid = true

structure DmaBusy (b : Burst) (s : State p) : Prop extends Loaded b s where
  phase : s.stateQ = .waitDmaFin
  descValid : s.descValid = false

structure Finishing (s : State p) : Prop where
  phase : s.stateQ = .finishAxi
  awready : s.awready = false
  clientDescValid : s.clientDescValid = false
  bvalid : s.bvalid = true
  client : s.client.phase = .idle
  statuses : s.client.statuses = []
  descValid : s.descValid = false

end Stages

section Cycle

variable {s : State p} (i : Input)

structure Handshakes (s : State p) (i : Input) (aw beat desc : Bool) : Prop where
  aw : awTaken s i = aw
  beat : beatTaken s i = beat
  desc : descTaken s i = desc

theorem beatTaken_of_client_idle (h : s.client.phase = .idle) : beatTaken s i = false := by
  rw [beatTaken, wready, h]
  exact Bool.and_false _

theorem handshakes_of_idle_client (hAw : s.awready = false) (hClient : s.client.phase = .idle)
    (hDesc : s.descValid = false) : Handshakes s i false false false := by
  refine ⟨?_, beatTaken_of_client_idle i hClient, ?_⟩
  · rw [awTaken, hAw, Bool.false_and]
  · rw [descTaken, hDesc, Bool.false_and]

theorem clientStep_idle (hPhase : s.client.phase = .idle) (hStatuses : s.client.statuses = [])
    (hTaken : clientDescTaken s i = false) : clientStep s i = s.client := by
  have hNone : clientStatusValid s i = false := by rw [clientStatusValid, hStatuses]; rfl
  rw [clientStep, hPhase, hTaken, hNone]
  rfl

theorem ramD_of_client_idle (h : s.client.phase = .idle) : ramD s i = s.ram := by
  rw [ramD, h]
  rfl

theorem Idle.events (h : Idle s) : Handshakes s i i.awvalid false false := by
  refine ⟨?_, beatTaken_of_client_idle i h.client, ?_⟩
  · rw [awTaken, h.awready, Bool.true_and]
  · rw [descTaken, h.descValid, Bool.false_and]

theorem Idle.client_kept (h : Idle s) : clientStep s i = s.client := by
  refine clientStep_idle i h.client h.statuses ?_
  rw [clientDescTaken, h.clientDescValid, Bool.false_and]

theorem Idle.stay (h : Idle s) (hAw : i.awvalid = false) : Idle (step s i) := by
  have hD : stateD s i = .idle := by simp [stateD, h.phase, awTaken, hAw]
  have hClient := h.client_kept i
  rw [step, hD]
  exact ⟨hD, rfl, rfl, (congrArg Client.phase hClient).trans h.client,
    (congrArg Client.statuses hClient).trans h.statuses, rfl, rfl⟩

theorem Idle.accept (h : Idle s) {b : Burst} (hAw : i.awvalid = true) (hBurst : i.aw = b.aw) :
    ToClient b (step s i) := by
  have hD : stateD s i = .issueToClient := by simp [stateD, h.phase, awTaken, hAw, h.awready]
  have hClient := h.client_kept i
  have hLen : dmaLen i = b.size := by rw [dmaLen, Burst.size, b.length_eq, hBurst]
  rw [step, hD]
  exact ⟨.inl hD, rfl, rfl, (congrArg Client.phase hClient).trans h.client,
    (congrArg Client.statuses hClient).trans h.statuses, h.descValid, h.frontOffSet,
    ⟨congrArg Aw.addr hBurst, hLen⟩, ⟨congrArg Aw.id hBurst, hLen⟩⟩

variable {b : Burst}

theorem ToClient.events (h : ToClient b s) : Handshakes s i false false false :=
  handshakes_of_idle_client i h.awready h.client h.descValid

theorem ToClient.taken_eq (h : ToClient b s) : clientDescTaken s i = i.clientTakes := by
  rw [clientDescTaken, clientDescReady, h.clientDescValid, h.client]
  rfl

theorem ToClient.stay (h : ToClient b s) (hTakes : i.clientTakes = false) : ToClient b (step s i) := by
  have hTaken : clientDescTaken s i = false := (h.taken_eq i).trans hTakes
  have hD : stateD s i = .waitClient := by
    rcases h.phase with hPhase | hPhase <;> simp [stateD, hPhase, hTaken]
  have hReady : clientDescReady s i = false := by rw [clientDescReady, hTakes, Bool.and_false]
  have hClient := clientStep_idle i h.client h.statuses hTaken
  rw [step, hD]
  refine ⟨.inr hD, h.awready, ?_, (congrArg Client.phase hClient).trans h.client,
    (congrArg Client.statuses hClient).trans h.statuses, h.descValid, h.frontOffSet, h.saved, h.clientDesc⟩
  exact (if_neg (Bool.eq_false_iff.mp hReady)).trans h.clientDescValid

theorem ToClient.take (h : ToClient b s) (hTakes : i.clientTakes = true) : Storing b 0 (step s i) := by
  have hTaken : clientDescTaken s i = true := (h.taken_eq i).trans hTakes
  have hD : stateD s i = .waitClientFin := by
    rcases h.phase with hPhase | hPhase <;> simp [stateD, hPhase, hTaken]
  have hNone : clientStatusValid s i = false := by rw [clientStatusValid, h.statuses]; rfl
  have hClient : clientStep s i =
      ⟨.write, 0, (b.size.toNat - 1) / 64, b.aw.id, []⟩ := by
    rw [clientStep, h.client, hTaken, hNone, h.clientDesc.1, h.clientDesc.2, h.statuses]
    rfl
  have hBeat := beatTaken_of_client_idle i h.client
  rw [step, hD]
  refine ⟨hD, h.awready, rfl, congrArg Client.phase hClient, congrArg Client.statuses hClient, h.descValid,
    h.saved, congrArg Client.tag hClient, congrArg Client.addr hClient, ?_, ?_,
    fun hLt => absurd hLt (Nat.lt_irrefl 0), ⟨s.ram, ramD_of_client_idle i h.client⟩⟩
  · exact (congrArg (fun c : Client p => c.cycleCount + 0 + 1) hClient).trans b.size_sub_one
  · change (s.frontOffSet || beatTaken s i) = _
    rw [h.frontOffSet, hBeat]
    rfl

theorem Storing.events {j : Nat} (h : Storing b j s) :
    Handshakes s i false (i.wvalid && i.clientStores) false := by
  refine ⟨?_, ?_, ?_⟩
  · rw [awTaken, h.awready, Bool.false_and]
  · rw [beatTaken, wready, h.client]
    rfl
  · rw [descTaken, h.descValid, Bool.false_and]

theorem Storing.stateD_eq {j : Nat} (h : Storing b j s) : stateD s i = .waitClientFin := by
  simp [stateD, h.phase, clientStatusValid, h.statuses]

theorem Storing.statuses_kept {j : Nat} (h : Storing b j s) : clientStatusValid s i = false := by
  rw [clientStatusValid, h.statuses]
  rfl

theorem Storing.stay {j : Nat} (h : Storing b j s) (hBeat : beatTaken s i = false) : Storing b j (step s i) := by
  have hD := h.stateD_eq i
  have hClient : clientStep s i = s.client := by
    rw [clientStep, h.client, hBeat, h.statuses_kept i]
    rfl
  have hRam : ramD s i = s.ram := by rw [ramD, hBeat, Bool.and_false]; rfl
  rw [step, hD]
  refine ⟨hD, h.awready, rfl, (congrArg Client.phase hClient).trans h.client,
    (congrArg Client.statuses hClient).trans h.statuses, h.descValid, h.saved,
    (congrArg Client.tag hClient).trans h.tag, (congrArg Client.addr hClient).trans h.addr, ?_, ?_, ?_, ?_⟩
  · exact (congrArg (fun c : Client p => c.cycleCount + j + 1) hClient).trans h.left
  · change (s.frontOffSet || beatTaken s i) = _
    rw [hBeat, Bool.or_false, h.frontOffSet]
  · intro hj
    change (if !s.frontOffSet && beatTaken s i then _ else s.frontOff) = _
    rw [hBeat, Bool.and_false]
    exact h.frontOff hj
  · obtain ⟨ram, hEq⟩ := h.ram
    exact ⟨ram, hRam.trans hEq⟩

theorem Storing.beat_stored {j : Nat} (h : Storing b j s) (hTaken : beatTaken s i = true)
    (hBeat : b.beats[j]? = some i.beat) :
    (∃ ram, ramD s i = b.stored ram (j + 1)) ∧
      (if !s.frontOffSet && beatTaken s i then (lzFront i.beat.strb).setWidth 64 else s.frontOff) = b.front ∧
      (i.beat.last = true ↔ j + 1 = b.beats.length) := by
  obtain ⟨hj, hGet⟩ := List.getElem?_eq_some_iff.mp hBeat
  refine ⟨?_, ?_, hGet ▸ b.last_iff j hj⟩
  · obtain ⟨ram, hEq⟩ := h.ram
    refine ⟨ram, ?_⟩
    rw [ramD, h.client, hTaken, h.addr, hEq, Burst.stored, hBeat]
    rfl
  · rw [hTaken, Bool.and_true, h.frontOffSet]
    cases j with
    | zero =>
      have hFirst : b.first = i.beat := by
        rw [Burst.first, ← hGet, List.head_eq_getElem]
      rw [Burst.front, hFirst]
      rfl
    | succ j => exact h.frontOff (Nat.succ_pos j)

theorem Storing.next {j : Nat} (h : Storing b j s) (hTaken : beatTaken s i = true)
    (hBeat : b.beats[j]? = some i.beat) (hMore : j + 1 < b.beats.length) : Storing b (j + 1) (step s i) := by
  have hD := h.stateD_eq i
  obtain ⟨hRam, hFront, hLast⟩ := h.beat_stored i hTaken hBeat
  have hNotLast : i.beat.last = false := Bool.eq_false_iff.mpr fun hEq => absurd (hLast.mp hEq) (by omega)
  have hLeft := h.left
  have hClient : clientStep s i =
      ⟨.write, s.client.addr + 64, s.client.cycleCount - 1, s.client.tag, []⟩ := by
    rw [clientStep, h.client, hTaken, h.statuses_kept i, hNotLast, h.statuses]
    have hCount : s.client.cycleCount ≠ 0 := by omega
    exact if_neg hCount
  rw [step, hD]
  refine ⟨hD, h.awready, rfl, congrArg Client.phase hClient, congrArg Client.statuses hClient, h.descValid,
    h.saved, (congrArg Client.tag hClient).trans h.tag,
    (congrArg Client.addr hClient).trans ?_, ?_, ?_, fun _ => hFront, hRam⟩
  · rw [h.addr]
    exact (BitVec.ofNat_add (64 * j) 64).symm
  · have hCount : (clientStep s i).cycleCount = s.client.cycleCount - 1 := congrArg Client.cycleCount hClient
    change (clientStep s i).cycleCount + (j + 1) + 1 = _
    omega
  · change (s.frontOffSet || beatTaken s i) = _
    rw [hTaken, Bool.or_true]
    exact (decide_eq_true (Nat.succ_pos j)).symm

theorem Storing.finish {j : Nat} (h : Storing b j s) (hTaken : beatTaken s i = true)
    (hBeat : b.beats[j]? = some i.beat) (hAll : j + 1 = b.beats.length) : Stored b (step s i) := by
  have hD := h.stateD_eq i
  obtain ⟨hRam, hFront, hLast⟩ := h.beat_stored i hTaken hBeat
  have hIsLast : i.beat.last = true := hLast.mpr hAll
  have hClient : clientStep s i =
      ⟨.idle, s.client.addr + 64, s.client.cycleCount - 1, s.client.tag, [s.client.tag]⟩ := by
    rw [clientStep, h.client, hTaken, h.statuses_kept i, hIsLast, h.statuses]
    rfl
  have hFinal : b.final = i.beat := by
    obtain ⟨hj, hGet⟩ := List.getElem?_eq_some_iff.mp hBeat
    rw [Burst.final, List.getLast_eq_getElem, ← hGet]
    congr 1
    omega
  rw [step, hD]
  refine ⟨hD, h.awready, rfl, congrArg Client.phase hClient, ?_, h.descValid, h.saved, ⟨hFront, ?_⟩,
    hAll ▸ hRam⟩
  · rw [← h.tag]
    exact congrArg Client.statuses hClient
  · change (if beatTaken s i && i.beat.last then (lzBack i.beat.strb).setWidth 64 else s.backOff) = _
    rw [hTaken, hIsLast, Burst.back, hFinal]
    rfl

theorem Stored.events (h : Stored b s) : Handshakes s i false false false :=
  handshakes_of_idle_client i h.awready h.client h.descValid

theorem Stored.status_eq (h : Stored b s) : clientStatusValid s i = i.clientReports := by
  rw [clientStatusValid, h.statuses]
  rfl

theorem Stored.clientStep_eq (h : Stored b s) :
    clientStep s i = { s.client with statuses := if i.clientReports then [] else s.client.statuses } := by
  have hTaken : clientDescTaken s i = false := by rw [clientDescTaken, h.clientDescValid, Bool.false_and]
  rw [clientStep, h.client, hTaken, h.status_eq i, h.statuses]
  cases i.clientReports <;> rfl

theorem Stored.stay (h : Stored b s) (hReports : i.clientReports = false) : Stored b (step s i) := by
  have hD : stateD s i = .waitClientFin := by simp [stateD, h.phase, h.status_eq i, hReports]
  have hClient := h.clientStep_eq i
  have hBeat := beatTaken_of_client_idle i h.client
  rw [hReports] at hClient
  rw [step, hD]
  refine ⟨hD, h.awready, rfl, (congrArg Client.phase hClient).trans h.client,
    (congrArg Client.statuses hClient).trans h.statuses, h.descValid, h.saved, ⟨?_, ?_⟩, ?_⟩
  · change (if !s.frontOffSet && beatTaken s i then _ else s.frontOff) = _
    rw [hBeat, Bool.and_false]
    exact h.offsets.1
  · change (if beatTaken s i && i.beat.last then _ else s.backOff) = _
    rw [hBeat, Bool.false_and]
    exact h.offsets.2
  · obtain ⟨ram, hEq⟩ := h.ram
    exact ⟨ram, (ramD_of_client_idle i h.client).trans hEq⟩

theorem Stored.report (h : Stored b s) (hReports : i.clientReports = true) : ToDma b (step s i) := by
  have hD : stateD s i = .issueToDma := by simp [stateD, h.phase, h.status_eq i, hReports]
  have hClient := h.clientStep_eq i
  rw [hReports] at hClient
  have hDesc : (⟨s.savedDmaAddr + s.frontOff, s.frontOff.setWidth _,
      (s.savedDmaLen.setWidth 64 - s.frontOff - s.backOff).setWidth 16,
      (s.client.statuses.headD 0).setWidth 16⟩ : Desc p) = b.desc p := by
    rw [h.saved.1, h.saved.2, h.offsets.1, h.offsets.2, h.statuses]
    rfl
  obtain ⟨ram, hEq⟩ := h.ram
  rw [step, hD]
  exact ⟨⟨h.awready, h.clientDescValid, (congrArg Client.phase hClient).trans h.client,
    congrArg Client.statuses hClient, hDesc, ⟨ram, (ramD_of_client_idle i h.client).trans hEq⟩⟩, .inl hD, rfl⟩

theorem Loaded.common (h : Loaded b s) : Loaded b (common s i) := by
  have hTaken : clientDescTaken s i = false := by rw [clientDescTaken, h.clientDescValid, Bool.false_and]
  have hClient := clientStep_idle i h.client h.statuses hTaken
  obtain ⟨ram, hEq⟩ := h.ram
  exact ⟨h.awready, h.clientDescValid, (congrArg Client.phase hClient).trans h.client,
    (congrArg Client.statuses hClient).trans h.statuses, h.desc,
    ⟨ram, (ramD_of_client_idle i h.client).trans hEq⟩⟩

theorem ToDma.events (h : ToDma b s) : Handshakes s i false false i.descReady := by
  refine ⟨?_, beatTaken_of_client_idle i h.client, ?_⟩
  · rw [awTaken, h.awready, Bool.false_and]
  · rw [descTaken, h.descValid, Bool.true_and]

theorem ToDma.stay (h : ToDma b s) (hReady : i.descReady = false) : ToDma b (step s i) := by
  have hD : stateD s i = .waitDma := by
    rcases h.phase with hPhase | hPhase <;> simp [stateD, hPhase, descTaken, hReady]
  have hLoaded := h.toLoaded.common i
  rw [step, hD]
  refine ⟨⟨hLoaded.awready, hLoaded.clientDescValid, hLoaded.client, hLoaded.statuses, hLoaded.desc, hLoaded.ram⟩,
    .inr hD, ?_⟩
  exact (if_neg (Bool.eq_false_iff.mp hReady)).trans h.descValid

theorem ToDma.take (h : ToDma b s) (hReady : i.descReady = true) : DmaBusy b (step s i) := by
  have hD : stateD s i = .waitDmaFin := by
    rcases h.phase with hPhase | hPhase <;> simp [stateD, hPhase, descTaken, hReady, h.descValid]
  have hLoaded := h.toLoaded.common i
  rw [step, hD]
  exact ⟨⟨hLoaded.awready, hLoaded.clientDescValid, hLoaded.client, hLoaded.statuses, hLoaded.desc, hLoaded.ram⟩,
    hD, rfl⟩

theorem DmaBusy.events (h : DmaBusy b s) : Handshakes s i false false false :=
  handshakes_of_idle_client i h.awready h.client h.descValid

theorem DmaBusy.stay (h : DmaBusy b s) (hStatus : i.dmaStatusValid = false) : DmaBusy b (step s i) := by
  have hD : stateD s i = .waitDmaFin := by simp [stateD, h.phase, hStatus]
  have hLoaded := h.toLoaded.common i
  rw [step, hD]
  exact ⟨⟨hLoaded.awready, hLoaded.clientDescValid, hLoaded.client, hLoaded.statuses, hLoaded.desc, hLoaded.ram⟩,
    hD, rfl⟩

theorem DmaBusy.complete (h : DmaBusy b s) (hStatus : i.dmaStatusValid = true) : Finishing (step s i) := by
  have hD : stateD s i = .finishAxi := by simp [stateD, h.phase, hStatus]
  have hLoaded := h.toLoaded.common i
  rw [step, hD]
  exact ⟨hD, h.awready, h.clientDescValid, rfl, hLoaded.client, hLoaded.statuses, h.descValid⟩

theorem Finishing.events (h : Finishing s) : Handshakes s i false false false :=
  handshakes_of_idle_client i h.awready h.client h.descValid

theorem Finishing.client_kept (h : Finishing s) : clientStep s i = s.client := by
  refine clientStep_idle i h.client h.statuses ?_
  rw [clientDescTaken, h.clientDescValid, Bool.false_and]

theorem Finishing.stay (h : Finishing s) (hReady : i.bready = false) : Finishing (step s i) := by
  have hD : stateD s i = .finishAxi := by simp [stateD, h.phase, hReady]
  have hClient := h.client_kept i
  rw [step, hD]
  exact ⟨hD, h.awready, h.clientDescValid, rfl, (congrArg Client.phase hClient).trans h.client,
    (congrArg Client.statuses hClient).trans h.statuses, h.descValid⟩

theorem Finishing.done (h : Finishing s) (hReady : i.bready = true) : Idle (step s i) := by
  have hD : stateD s i = .idle := by simp [stateD, h.phase, hReady, h.bvalid]
  have hClient := h.client_kept i
  rw [step, hD]
  exact ⟨hD, rfl, rfl, (congrArg Client.phase hClient).trans h.client,
    (congrArg Client.statuses hClient).trans h.statuses, rfl, rfl⟩

end Cycle

end FPsPIN.HostMem
