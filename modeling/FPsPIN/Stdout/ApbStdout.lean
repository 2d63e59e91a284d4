import FPsPIN.Lib.Trace

/-!
# Characters into the standard output FIFO

The synthesised branch of apb_stdout. A transfer that completes loads a word
into din and raises the write enable of the FIFO for the next cycle, and pready
is made from the full flag of this cycle. The word that fills the FIFO is in it
one cycle later than the transfer, so when the next transfer comes at once its
pready still tells of a free place, and the acknowledge of that write raises
pready once more.

The master is any that keeps to APB: a setup cycle, access cycles until pready,
then a pause or the next transfer. FIFO reads come in any pattern. The vendor
FIFO has its full flag in the cycle after the write that fills it, ignores a
write while full and acknowledges a write in the cycle after it.
-/

namespace FPsPIN.Stdout

open FPsPIN.Trace

structure Params where
  nCores : Nat
  nClusters : Nat
  /-- Places in the FIFO. -/
  depth : Nat
  depth_pos : 0 < depth

variable {p : Params}

section Requests

def clIdx (paddr : BitVec 32) : BitVec 8 := ((paddr >>> 7) &&& 0xf#32).setWidth 8

def coreIdx (paddr : BitVec 32) : BitVec 8 := ((paddr >>> 3) &&& 0xf#32).setWidth 8

/-- A write by a core that exists. -/
structure Request (p : Params) where
  paddr : BitVec 32
  pwdata : BitVec 32
  cluster : (clIdx paddr).toNat < p.nClusters
  core : (coreIdx paddr).toNat < p.nCores

/-- The word that goes into the FIFO: cluster, core and character. -/
def Request.word (r : Request p) : BitVec 32 :=
  0#8 ++ clIdx r.paddr ++ coreIdx r.paddr ++ (r.pwdata &&& 0xff#32).setWidth 8

end Requests

inductive Bus (p : Params) where
  | idle
  | setup (r : Request p)
  | access (r : Request p)

/-- The registers of the module, the FIFO with its registered outputs, and the bus. For the statements
the words of the transfers that completed outside the reset of the FIFO, and those that entered it. -/
structure State (p : Params) where
  pready : Bool
  wrEn : Bool
  din : BitVec 32
  fifo : List (BitVec 32)
  wrAck : Bool
  wrRstBusy : Bool
  bus : Bus p
  completed : List (BitVec 32)
  added : List (BitVec 32)

/-- What the environment does in a cycle: the transfer that begins if the bus is free, a read of the
FIFO, the end of its reset. -/
structure Input (p : Params) where
  request : Option (Request p)
  rdEn : Bool
  release : Bool

namespace State

/-- After the reset of the module, with the FIFO still in its own. -/
def reset (p : Params) : State p := ⟨false, false, 0, [], false, true, .idle, [], []⟩

def full (s : State p) : Bool := decide (p.depth ≤ s.fifo.length)

/-- The FIFO takes din. -/
def writes (s : State p) : Bool := s.wrEn && !s.full

/-- The transfer that completes in this cycle outside the reset of the FIFO. -/
def accepted (s : State p) : Option (Request p) :=
  match s.bus with
  | .access r => if s.pready && !s.wrRstBusy then some r else none
  | _ => none

def completes (s : State p) : Bool :=
  match s.bus with
  | .access _ => s.pready
  | _ => false

def nextBus (s : State p) (i : Input p) : Bus p :=
  match s.bus with
  | .setup r => .access r
  | .access r => if s.pready then i.request.elim .idle .setup else .access r
  | .idle => i.request.elim .idle .setup

/-- One cycle. A transfer that completes during the reset of the FIFO leaves wr_en as it is. -/
def next (s : State p) (i : Input p) : State p where
  pready := s.wrAck || (s.accepted.isNone && !s.full)
  wrEn := if s.completes then s.accepted.isSome || s.wrEn else false
  din := s.accepted.elim s.din Request.word
  fifo := (if i.rdEn then s.fifo.tail else s.fifo) ++ if s.writes then [s.din] else []
  wrAck := s.writes
  wrRstBusy := s.wrRstBusy && !i.release
  bus := s.nextBus i
  completed := s.completed ++ (s.accepted.map Request.word).toList
  added := s.added ++ if s.writes then [s.din] else []

def step (s : State p) (i : Input p) : Option (State p) := some (s.next i)

/-- The transfers have added one word each, in their order, the last of them with the write of this cycle. -/
def Lossless (s : State p) : Prop := s.added ++ (if s.writes then [s.din] else []) = s.completed

/-- No transfer completes while the FIFO is full and is not read. -/
def HasRoom (s : State p) (i : Input p) : Prop := s.accepted.isSome = true → s.full = true → i.rdEn = true

section Steps

/-- A pending write is outside the reset of the FIFO, and the transfer after it has not got to its access. -/
structure Inv (s : State p) : Prop where
  busy : s.wrRstBusy = true → s.wrEn = false
  bus : s.wrEn = true → s.completes = false
  length : s.fifo.length ≤ p.depth

variable {s : State p} {i : Input p}

theorem full_iff : s.full = true ↔ p.depth ≤ s.fifo.length := decide_eq_true_iff

theorem completes_iff : s.completes = true ↔ ∃ r, s.bus = .access r ∧ s.pready = true := by
  rw [completes]
  cases hBus : s.bus with
  | idle => simp
  | setup r => simp
  | access r => simp

theorem accepted_eq_some {r : Request p} :
    s.accepted = some r ↔ s.bus = .access r ∧ s.pready = true ∧ s.wrRstBusy = false := by
  rw [accepted]
  cases hBus : s.bus with
  | idle => simp
  | setup r => simp
  | access r => cases s.pready <;> cases s.wrRstBusy <;> simp

theorem completes_of_accepted {r : Request p} (h : s.accepted = some r) : s.completes = true := by
  obtain ⟨hBus, hReady, -⟩ := accepted_eq_some.mp h
  exact completes_iff.mpr ⟨r, hBus, hReady⟩

theorem wrEn_of_completes (h : s.Inv) (hCompletes : s.completes = true) : s.wrEn = false := by
  apply eq_false_of_ne_true
  intro hEn
  exact absurd ((h.bus hEn).symm.trans hCompletes) (by decide)

theorem writes_of_accepted (h : s.Inv) {r : Request p} (hAccepted : s.accepted = some r) : s.writes = false := by
  rw [writes, wrEn_of_completes h (completes_of_accepted hAccepted), Bool.false_and]

theorem wrEn_of_not_accepted (h : s.Inv) (hNone : s.accepted = none) : (s.next i).wrEn = false := by
  change (if s.completes then s.accepted.isSome || s.wrEn else false) = false
  split
  · rename_i hCompletes
    rw [hNone, wrEn_of_completes h hCompletes]
    rfl
  · rfl

theorem wrEn_of_accepted {r : Request p} (hAccepted : s.accepted = some r) : (s.next i).wrEn = true := by
  change (if s.completes then s.accepted.isSome || s.wrEn else false) = true
  rw [if_pos (completes_of_accepted hAccepted), hAccepted]
  rfl

theorem length_next (s : State p) (i : Input p) : (s.next i).fifo.length =
    (if i.rdEn then s.fifo.length - 1 else s.fifo.length) + if s.writes then 1 else 0 := by
  change ((if i.rdEn then s.fifo.tail else s.fifo) ++ if s.writes then [s.din] else []).length = _
  rw [List.length_append]
  congr 1
  · split
    · exact List.length_tail
    · rfl
  · split <;> rfl

theorem length_next_le (h : s.Inv) : (s.next i).fifo.length ≤ p.depth := by
  have hDepth := h.length
  rw [length_next s i]
  cases hWrites : s.writes with
  | false => split <;> simp <;> omega
  | true =>
    have hRoom : ¬ p.depth ≤ s.fifo.length := by
      rw [← full_iff]
      have hFull := (Bool.and_eq_true_iff.mp hWrites).2
      simpa using hFull
    split <;> simp <;> omega

theorem next_inv (h : s.Inv) : (s.next i).Inv := by
  refine ⟨fun hBusy => ?_, fun hEn => ?_, length_next_le h⟩
  · have hNow : s.wrRstBusy = true := (Bool.and_eq_true_iff.mp hBusy).1
    apply wrEn_of_not_accepted h
    cases hAccepted : s.accepted with
    | none => rfl
    | some r => exact absurd (hNow.symm.trans (accepted_eq_some.mp hAccepted).2.2) (by decide)
  · cases hAccepted : s.accepted with
    | none => exact absurd (hEn.symm.trans (wrEn_of_not_accepted h hAccepted)) (by decide)
    | some r =>
      -- the bus goes on with a setup cycle or a pause
      obtain ⟨hBus, hReady, -⟩ := accepted_eq_some.mp hAccepted
      have hNext : (s.next i).bus = i.request.elim .idle .setup := by
        change s.nextBus i = _
        rw [nextBus, hBus]
        exact if_pos hReady
      rw [completes, hNext]
      cases i.request <;> rfl

theorem full_next_iff (h : s.Inv) {r : Request p} (hAccepted : s.accepted = some r) :
    (s.next i).full = false ↔ (s.full = true → i.rdEn = true) := by
  have hLength := length_next s i
  rw [writes_of_accepted h hAccepted] at hLength
  have hDepth := h.length
  have hPos := p.depth_pos
  rw [← Bool.not_eq_true, full_iff, full_iff, hLength]
  cases i.rdEn with
  | false => simp
  | true =>
    simp
    omega

theorem next_lossless_iff (h : s.Inv) (hLossless : s.Lossless) : (s.next i).Lossless ↔ s.HasRoom i := by
  have hLog : (s.next i).Lossless ↔
      (if (s.next i).writes then [(s.next i).din] else []) = (s.accepted.map Request.word).toList := by
    change (s.added ++ if s.writes then [s.din] else []) ++ _ = s.completed ++ _ ↔ _
    rw [hLossless]
    exact List.append_right_inj _
  rw [hLog, HasRoom]
  cases hAccepted : s.accepted with
  | none =>
    have hWrites : (s.next i).writes = false := by
      rw [writes, wrEn_of_not_accepted h hAccepted, Bool.false_and]
    rw [hWrites]
    exact iff_of_true rfl fun hSome => nomatch hSome
  | some r =>
    have hWrites : (s.next i).writes = !(s.next i).full := by
      rw [writes, wrEn_of_accepted hAccepted, Bool.true_and]
    have hDin : (s.next i).din = r.word := by
      change s.accepted.elim s.din Request.word = _
      rw [hAccepted]
      rfl
    rw [hWrites, hDin]
    simp only [Option.isSome_some, forall_const]
    rw [← full_next_iff h hAccepted]
    cases (s.next i).full <;> simp

end Steps

/-- In every run the transfers add one word each exactly as long as none completes at a full FIFO that
is not read. -/
theorem transfers_add_iff (p : Params) (inputs : List (Input p)) :
    (∀ taken, taken <+: inputs → ∀ s, run step (reset p) taken = some s → s.Lossless) ↔
      Along step HasRoom (reset p) inputs := by
  have hStep : ∀ (s : State p) i s', s.Inv → s.Lossless → step s i = some s' →
      s'.Inv ∧ (s'.Lossless ↔ s.HasRoom i) := by
    rintro s i s' hInv hLossless ⟨rfl⟩
    exact ⟨next_inv hInv, next_lossless_iff hInv hLossless⟩
  have hReset : (reset p).Inv := ⟨fun _ => rfl, fun h => (nomatch h), Nat.zero_le _⟩
  exact along_iff hStep hReset rfl inputs

section BackToBack

variable (r : Request p)

/-- One transfer after the other, and no read. -/
def transfer : Input p := ⟨some r, false, true⟩

def filled (k : Nat) : State p :=
  ⟨true, false, if k = 0 then 0 else r.word, List.replicate k r.word, decide (0 < k), false, .access r,
    List.replicate k r.word, List.replicate k r.word⟩

theorem filled_next (k : Nat) (h : k < p.depth) :
    ((filled r k).next (transfer r)).next (transfer r) = filled r (k + 1) := by
  have hRoom : ¬ p.depth ≤ k := Nat.not_le.mpr h
  have hFirst : (filled r k).next (transfer r) =
      ⟨decide (0 < k), true, r.word, List.replicate k r.word, false, false, .setup r,
        List.replicate k r.word ++ [r.word], List.replicate k r.word⟩ := by
    simp [next, filled, transfer, accepted, completes, writes, full, nextBus, hRoom]
  rw [hFirst]
  simp [next, filled, transfer, accepted, completes, writes, full, nextBus, hRoom, List.replicate_succ']

theorem run_filled (k : Nat) (h : k ≤ p.depth) :
    run step (reset p) (List.replicate (2 * k + 2) (transfer r)) = some (filled r k) := by
  induction k with
  | zero =>
    have hRoom : ¬ p.depth ≤ 0 := Nat.not_le.mpr p.depth_pos
    simp [run, step, reset, next, filled, transfer, accepted, completes, writes, full, nextBus, hRoom]
  | succ k ih =>
    have hInputs : List.replicate (2 * (k + 1) + 2) (transfer r) =
        List.replicate (2 * k + 2) (transfer r) ++ [transfer r, transfer r] := by
      rw [show 2 * (k + 1) + 2 = 2 * k + 2 + 2 by omega, List.replicate_add]
      rfl
    rw [hInputs, run_append, ih (by omega)]
    change some _ = _
    rw [filled_next r k (by omega)]

end BackToBack

end State

/-- Two clusters of eight cores and a FIFO of 8192 words. -/
def pspinParams : Params := ⟨8, 2, 8192, Nat.zero_lt_succ _⟩

theorem character_lost : ¬ ∀ (inputs : List (Input pspinParams)) (s : State pspinParams),
    run State.step (State.reset pspinParams) inputs = some s → s.Lossless := by
  intro hAll
  let r : Request pspinParams := ⟨0, 0x41, by decide, by decide⟩
  have hRun := State.run_filled r 8192 (Nat.le_refl _)
  have hFull : (State.filled r 8192).full = true := by
    rw [State.full_iff]
    exact (List.length_replicate ..).ge
  have hInv : (State.filled r 8192).Inv := by
    refine ⟨?_, ?_, (List.length_replicate ..).le⟩
    · rintro ⟨⟩
    · rintro ⟨⟩
  have hNext := hAll (List.replicate (2 * 8192 + 2) (State.transfer r) ++ [State.transfer r]) _ (by
    rw [run_append, hRun]
    rfl)
  have hRoom := (State.next_lossless_iff hInv (List.append_nil _)).mp hNext
  exact absurd (hRoom rfl hFull) (by decide)

end FPsPIN.Stdout
