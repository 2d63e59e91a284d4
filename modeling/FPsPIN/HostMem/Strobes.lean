import FPsPIN.HostMem.Descriptors
import Mathlib.Data.Set.Defs

/-!
# The strobed bytes of a burst

The offsets that cut the ends of a burst come from the two zero counts. For a
strobe that is not zero they are right, so a burst with one run of strobes from
its first beat to its last has a descriptor for these bytes and no others. For
a strobe of all zeros the count is 64 and the wire for it has six bits, so it
reads 0: then the whole beat is copied.
-/

namespace FPsPIN.HostMem

open Bytes Config Run

variable {p : Params}

section Counts

structure LastSet (vector : Nat → Bool) (n m : Nat) : Prop where
  lt : m < n
  bit : vector m = true
  above : ∀ i, m < i → i < n → vector i = false

variable {k m : Nat} {vector : Nat → Bool}

/-- The counts of the halves are put together as numbers: the lower half counts if the upper one is zero. -/
theorem toNat_clz_succ {upper lower : BitVec (k + 2)} (hUpper : (clz k fun i => vector (i + 2 ^ (k + 1))) = upper)
    (hLower : clz k vector = lower) (hL : upper.toNat ≤ 2 ^ (k + 1)) (hR : lower.toNat ≤ 2 ^ (k + 1)) :
    (clz (k + 1) vector).toNat =
      if upper.toNat = 2 ^ (k + 1) then 2 ^ (k + 1) + lower.toNat else upper.toNat := by
  have hMsb : ∀ x : BitVec (k + 2), x.toNat ≤ 2 ^ (k + 1) → x.msb = decide (x.toNat = 2 ^ (k + 1)) := by
    intro x hx
    rw [BitVec.msb_eq_decide]
    exact decide_eq_decide.mpr ⟨fun hGe => Nat.le_antisymm hx hGe, fun hEq => hEq.ge⟩
  have hDouble : 2 ^ (k + 2) = 2 ^ (k + 1) + 2 ^ (k + 1) := by rw [Nat.pow_succ, Nat.mul_two]
  rw [clz, hUpper, hLower, hMsb upper hL, hMsb lower hR]
  split_ifs with hNot hEq hEq
  · simp [hEq] at hNot
  · rw [BitVec.toNat_cons', BitVec.toNat_cons', BitVec.toNat_setWidth, Nat.mod_eq_of_lt (by omega)]
    simp [hEq]
  · rw [BitVec.toNat_cons', BitVec.toNat_cons', BitVec.toNat_setWidth]
    rcases Nat.lt_or_eq_of_le hR with hLt | hAll
    · rw [Nat.mod_eq_of_lt hLt]
      simp [hEq, hLt.ne, Nat.shiftLeft_eq]
    · rw [hAll, Nat.mod_self]
      simp [hEq, Nat.shiftLeft_eq, hDouble]
  · simp [hEq] at hNot

theorem toNat_clz_le (k : Nat) (vector : Nat → Bool) : (clz k vector).toNat ≤ 2 ^ (k + 1) := by
  induction k generalizing vector with
  | zero =>
    rw [clz]
    split_ifs <;> decide
  | succ k ih =>
    have hL := ih fun i => vector (i + 2 ^ (k + 1))
    have hR := ih vector
    rw [toNat_clz_succ rfl rfl hL hR]
    split_ifs <;> omega

theorem clz_of_zero (h : ∀ i < 2 ^ (k + 1), vector i = false) : (clz k vector).toNat = 2 ^ (k + 1) := by
  induction k generalizing vector with
  | zero => simp [clz, h 0 (by decide), h 1 (by decide)]
  | succ k ih =>
    have hL : (clz k fun i => vector (i + 2 ^ (k + 1))).toNat = 2 ^ (k + 1) := ih fun i hi => h _ (by omega)
    have hR : (clz k vector).toNat = 2 ^ (k + 1) := ih fun i hi => h i (by omega)
    rw [toNat_clz_succ rfl rfl hL.le hR.le, if_pos hL, hR]
    omega

theorem clz_of_lastSet (h : LastSet vector (2 ^ (k + 1)) m) : (clz k vector).toNat + m + 1 = 2 ^ (k + 1) := by
  induction k generalizing vector m with
  | zero =>
    have hm : m = 0 ∨ m = 1 := by
      have hLt := h.lt
      omega
    rcases hm with rfl | rfl
    · simp [clz, h.bit, h.above 1 (by decide) (by decide)]
    · simp [clz, h.bit]
  | succ k ih =>
    have hLt := h.lt
    rw [toNat_clz_succ rfl rfl (toNat_clz_le _ _) (toNat_clz_le _ _)]
    rcases Nat.lt_or_ge m (2 ^ (k + 1)) with hLow | hHigh
    · have hL : (clz k fun i => vector (i + 2 ^ (k + 1))).toNat = 2 ^ (k + 1) :=
        clz_of_zero fun i hi => h.above _ (by omega) (by omega)
      have hR := ih ⟨hLow, h.bit, fun i hi hlt => h.above i hi (by omega)⟩
      rw [if_pos hL]
      omega
    · have hBit : vector (m - 2 ^ (k + 1) + 2 ^ (k + 1)) = true := by
        rw [Nat.sub_add_cancel hHigh]
        exact h.bit
      have hSet : LastSet (fun i => vector (i + 2 ^ (k + 1))) (2 ^ (k + 1)) (m - 2 ^ (k + 1)) :=
        ⟨by omega, hBit, fun i hi hlt => h.above _ (by omega) (by omega)⟩
      have hL := ih hSet
      rw [if_neg (by omega)]
      omega

theorem toNat_clz {x : BitVec (2 ^ (k + 1))} (h : ∀ i < 2 ^ (k + 1), vector i = x.getLsbD i) :
    (clz k vector).toNat = x.clz.toNat := by
  have hWidth : 2 ^ (k + 1) < 2 ^ 2 ^ (k + 1) := Nat.lt_two_pow_self
  have hPos : 0 < 2 ^ (k + 1) := Nat.two_pow_pos _
  have hAll : (BitVec.ofNat (2 ^ (k + 1)) (2 ^ (k + 1))).toNat = 2 ^ (k + 1) := by
    rw [BitVec.toNat_ofNat, Nat.mod_eq_of_lt hWidth]
  rcases eq_or_ne x 0#(2 ^ (k + 1)) with rfl | hx
  · rw [clz_of_zero fun i hi => (h i hi).trans BitVec.getLsbD_zero, BitVec.clz_eq_iff_eq_zero.mpr rfl]
    exact hAll.symm
  · have hLt : x.clz.toNat < 2 ^ (k + 1) := by
      have hClz := BitVec.clz_lt_iff_ne_zero.mpr hx
      rw [BitVec.lt_def] at hClz
      exact Nat.lt_of_lt_of_eq hClz hAll
    have hLast : LastSet vector (2 ^ (k + 1)) (2 ^ (k + 1) - 1 - x.clz.toNat) := by
      refine ⟨by omega, ?_, ?_⟩
      · rw [h _ (by omega)]
        exact BitVec.getLsbD_true_clz_of_ne_zero hPos hx
      · intro i hi hi'
        rw [h i hi', BitVec.getLsbD]
        refine Nat.testBit_lt_two_pow (Nat.lt_of_lt_of_le BitVec.toNat_lt_two_pow_sub_clz ?_)
        exact Nat.pow_le_pow_right (by decide) (by omega)
    have hCount := clz_of_lastSet hLast
    omega

/-- Module clz with its parameter REVERSE, which turns the vector around at the outermost level only. -/
def clzReverse (reverse : Bool) (k : Nat) (refVector : BitVec (2 ^ (k + 1))) : BitVec (k + 2) :=
  clz k fun i => if reverse then refVector.getLsbD (2 ^ (k + 1) - 1 - i) else refVector.getLsbD i

/-- At every width the module counts leading or trailing zeros, and all bits of a vector without one. -/
theorem clz_counts_zeros (k : Nat) (refVector : BitVec (2 ^ (k + 1))) :
    (clzReverse false k refVector).toNat = refVector.clz.toNat ∧
      (clzReverse true k refVector).toNat = refVector.ctz.toNat ∧
      ∀ reverse, (clzReverse reverse k 0).toNat = 2 ^ (k + 1) := by
  refine ⟨toNat_clz fun i _ => rfl, ?_, ?_⟩
  · apply toNat_clz
    intro i hi
    rw [BitVec.getLsbD_reverse, BitVec.getMsbD_eq_getLsbD, decide_eq_true hi]
    rfl
  · intro reverse
    apply clz_of_zero
    intro i _
    cases reverse <;> exact BitVec.getLsbD_zero

variable {strb : BitVec 64}

theorem lzBack_of_lastSet (h : LastSet strb.getLsbD 64 m) : (lzBack strb).toNat + m + 1 = 64 := by
  have hCount := clz_of_lastSet (k := 5) h
  rw [lzBack, BitVec.toNat_setWidth, Nat.mod_eq_of_lt (by omega)]
  exact hCount

theorem lzFront_of_first (hm : m < 64) (hBit : strb.getLsbD m = true) (hBelow : ∀ i < m, strb.getLsbD i = false) :
    (lzFront strb).toNat = m := by
  have hLast : LastSet (fun i => strb.getLsbD (63 - i)) (2 ^ (5 + 1)) (63 - m) := by
    refine ⟨by omega, ?_, fun i hi hlt => hBelow _ (by omega)⟩
    rw [Nat.sub_sub_self (by omega)]
    exact hBit
  have hCount := clz_of_lastSet hLast
  rw [lzFront, BitVec.toNat_setWidth, Nat.mod_eq_of_lt (by omega)]
  omega

/-- The seventh bit of the count is lost. -/
theorem lz_zero : lzFront 0 = 0 ∧ lzBack 0 = 0 := by decide

end Counts

namespace Burst

variable (b : Burst)

def Strobed (n : Nat) : Prop := ∃ beat, b.beats[n / 64]? = some beat ∧ beat.strb.getLsbD (n % 64) = true

/-- The strobes are those of the bytes from lo to hi, and these are in the first and in the last beat. -/
structure RunsFrom (lo hi : Nat) : Prop where
  first : lo < 64
  last : 64 * b.beats.length ≤ hi + 64
  le : lo ≤ hi
  strobed : ∀ n, b.Strobed n ↔ lo ≤ n ∧ n ≤ hi

def OneRun : Prop := ∃ lo hi, b.RunsFrom lo hi

/-- Host memory after the strobed bytes are written. -/
def written (host : HostAddr → Byte) : HostAddr → Byte := fun x =>
  let n := (x - b.aw.addr).toNat
  match b.beats[n / 64]? with
  | some beat => if beat.strb.getLsbD (n % 64) then beat.data.extractLsb' (8 * (n % 64)) 8 else host x
  | none => host x

/-- Host and RAM addresses of the strobed bytes. -/
def strobedBytes (p : Params) : Set (HostAddr × RamAddr p) :=
  {x | ∃ n, b.Strobed n ∧ x = (b.aw.addr + BitVec.ofNat 64 n, BitVec.ofNat _ n)}

end Burst

/-- The host addresses that a descriptor writes, with the RAM addresses that it reads for them. -/
def Desc.copies (d : Desc p) : Set (HostAddr × RamAddr p) :=
  {x | ∃ k < d.len.toNat, x = (d.dmaAddr + BitVec.ofNat 64 k, d.ramAddr + BitVec.ofNat _ k)}

namespace Burst.RunsFrom

variable {b : Burst} {lo hi : Nat}

theorem hi_lt (h : b.RunsFrom lo hi) : hi < 64 * b.beats.length := by
  obtain ⟨beat, hBeat, _⟩ := (h.strobed hi).mpr ⟨h.le, Nat.le_refl hi⟩
  have hLt := (List.getElem?_eq_some_iff.mp hBeat).1
  omega

theorem front_eq (h : b.RunsFrom lo hi) : b.front = BitVec.ofNat 64 lo := by
  have hFirst : ∀ n < 64, b.first.strb.getLsbD n = true ↔ lo ≤ n ∧ n ≤ hi := by
    intro n hn
    rw [← h.strobed n]
    have hHead : b.beats[n / 64]? = some b.first := by
      rw [Nat.div_eq_of_lt hn, ← List.head?_eq_getElem?]
      exact List.head?_eq_some_head b.ne_nil
    simp [Strobed, hHead, Nat.mod_eq_of_lt hn]
  have hCount : (lzFront b.first.strb).toNat = lo := by
    refine lzFront_of_first h.first ((hFirst lo h.first).mpr ⟨Nat.le_refl lo, h.le⟩) fun i hi => ?_
    have hLo := h.first
    refine Bool.eq_false_iff.mpr fun hBit => ?_
    have hGe := ((hFirst i (by omega)).mp hBit).1
    omega
  apply BitVec.eq_of_toNat_eq
  have hLo := h.first
  rw [front, BitVec.toNat_setWidth, hCount, BitVec.toNat_ofNat]

theorem back_toNat (h : b.RunsFrom lo hi) : b.back.toNat + hi + 1 = 64 * b.beats.length := by
  have hLt := h.hi_lt
  have hLast := h.last
  have hDiv : ∀ n, 64 * (b.beats.length - 1) ≤ n → n < 64 * b.beats.length → n / 64 = b.beats.length - 1 := by
    intro n hLe hn
    omega
  have hFinal : ∀ i < 64, b.final.strb.getLsbD i = true ↔
      lo ≤ 64 * (b.beats.length - 1) + i ∧ 64 * (b.beats.length - 1) + i ≤ hi := by
    intro i hi
    rw [← h.strobed]
    have hGet : b.beats[(64 * (b.beats.length - 1) + i) / 64]? = some b.final := by
      rw [hDiv _ (by omega) (by omega), ← List.getLast?_eq_getElem?]
      exact List.getLast?_eq_some_getLast b.ne_nil
    have hMod : (64 * (b.beats.length - 1) + i) % 64 = i := by omega
    simp [Strobed, hGet, hMod]
  have hSet : LastSet b.final.strb.getLsbD 64 (hi - 64 * (b.beats.length - 1)) := by
    have hLe := h.le
    refine ⟨by omega, (hFinal _ (by omega)).mpr (by omega), fun i hi hlt => ?_⟩
    refine Bool.eq_false_iff.mpr fun hBit => ?_
    have hUpper := ((hFinal i hlt).mp hBit).2
    omega
  have hCount := lzBack_of_lastSet hSet
  rw [back, BitVec.toNat_setWidth, Nat.mod_eq_of_lt (by omega)]
  omega

theorem desc_eq (h : b.RunsFrom lo hi) :
    b.desc p = ⟨b.aw.addr + BitVec.ofNat 64 lo, BitVec.ofNat _ lo, BitVec.ofNat 16 (hi + 1 - lo),
      b.aw.id.setWidth 16⟩ := by
  have hFront := h.front_eq
  have hBack := h.back_toNat
  have hLe := h.le
  have hLo := h.first
  have hLength := b.length_le
  rw [desc, hFront]
  congr 1
  · apply BitVec.eq_of_toNat_eq
    rw [BitVec.toNat_setWidth, BitVec.toNat_ofNat, BitVec.toNat_ofNat,
      Nat.mod_eq_of_lt (show lo < 2 ^ 64 by omega)]
  · apply BitVec.eq_of_toNat_eq
    simp only [size, BitVec.toNat_setWidth, BitVec.toNat_sub, BitVec.toNat_ofNat]
    omega

theorem copies_desc (h : b.RunsFrom lo hi) : (b.desc p).copies = b.strobedBytes p := by
  have hHi := h.hi_lt
  have hLe := h.le
  have hLength := b.length_le
  have hLen : (BitVec.ofNat 16 (hi + 1 - lo)).toNat = hi + 1 - lo := by
    rw [BitVec.toNat_ofNat]
    omega
  rw [h.desc_eq]
  ext x
  constructor
  · rintro ⟨k, hk, rfl⟩
    rw [hLen] at hk
    refine ⟨lo + k, (h.strobed _).mpr (by omega), ?_⟩
    rw [BitVec.ofNat_add, BitVec.ofNat_add, BitVec.add_assoc]
  · rintro ⟨n, hn, rfl⟩
    obtain ⟨hLo, hnHi⟩ := (h.strobed n).mp hn
    refine ⟨n - lo, ?_, ?_⟩
    · rw [hLen]
      omega
    · rw [BitVec.add_assoc, ← BitVec.ofNat_add, ← BitVec.ofNat_add, Nat.add_sub_cancel' hLo]

end Burst.RunsFrom

namespace Burst

variable {b : Burst} {lo hi : Nat}

theorem writeBeat_ofNat {j n : Nat} (beat : Beat) (ram : RamAddr p → Byte) (hj : 64 * (j + 1) ≤ 2 ^ p.ramAddrWidth)
    (hn : n < 2 ^ p.ramAddrWidth) : writeBeat (BitVec.ofNat _ (64 * j)) beat ram (BitVec.ofNat _ n) =
      if n / 64 = j ∧ beat.strb.getLsbD (n % 64) = true then beat.data.extractLsb' (8 * (n % 64)) 8
      else ram (BitVec.ofNat _ n) := by
  have hLane : (BitVec.ofNat p.ramAddrWidth n - BitVec.ofNat p.ramAddrWidth (64 * j)).toNat =
      if 64 * j ≤ n then n - 64 * j else 2 ^ p.ramAddrWidth - 64 * j + n := by
    rw [BitVec.toNat_sub, BitVec.toNat_ofNat, BitVec.toNat_ofNat, Nat.mod_eq_of_lt hn,
      Nat.mod_eq_of_lt (show 64 * j < 2 ^ p.ramAddrWidth by omega)]
    split_ifs with hLe
    · have hSum : 2 ^ p.ramAddrWidth - 64 * j + n = 2 ^ p.ramAddrWidth + (n - 64 * j) := by omega
      rw [hSum, Nat.add_mod_left, Nat.mod_eq_of_lt (by omega)]
    · exact Nat.mod_eq_of_lt (by omega)
  rw [writeBeat, hLane]
  by_cases hDiv : n / 64 = j
  · have hMod : n - 64 * j = n % 64 := by omega
    rw [if_pos (show 64 * j ≤ n by omega), hMod]
    simp [hDiv, Nat.mod_lt]
  · rw [if_neg (fun h => absurd h.1 (by split_ifs <;> omega)), if_neg (fun h => absurd h.1 hDiv)]

theorem stored_ofNat {j n : Nat} (ram : RamAddr p → Byte) (hj : 64 * j ≤ 2 ^ p.ramAddrWidth)
    (hn : n < 2 ^ p.ramAddrWidth) {beat : Beat} (hBeat : b.beats[n / 64]? = some beat)
    (hBit : beat.strb.getLsbD (n % 64) = true) (hLt : n < 64 * j) :
    b.stored ram j (BitVec.ofNat _ n) = beat.data.extractLsb' (8 * (n % 64)) 8 := by
  induction j with
  | zero => omega
  | succ j ih =>
    rcases Nat.lt_or_eq_of_le (show n / 64 ≤ j by omega) with hEarlier | hNow
    · have hIh := ih (by omega) (by omega)
      rw [stored]
      cases b.beats[j]? with
      | none => exact hIh
      | some other =>
        refine (writeBeat_ofNat other _ hj hn).trans ?_
        rw [if_neg fun h => absurd h.1 hEarlier.ne]
        exact hIh
    · rw [stored, ← hNow, hBeat]
      exact (writeBeat_ofNat beat _ (hNow ▸ hj) hn).trans (if_pos ⟨rfl, hBit⟩)

theorem written_of_not_strobed {x : HostAddr} (host : HostAddr → Byte)
    (h : ¬ b.Strobed (x - b.aw.addr).toNat) : b.written host x = host x := by
  rw [written]
  cases hBeat : b.beats[(x - b.aw.addr).toNat / 64]? with
  | none => rfl
  | some beat => exact if_neg fun hBit => h ⟨beat, hBeat, hBit⟩

/-- Copying the RAM to the host writes the strobed bytes, if the beats fit the RAM. -/
theorem RunsFrom.hostAfter_eq (h : b.RunsFrom lo hi) (hFits : 64 * b.beats.length ≤ 2 ^ p.ramAddrWidth)
    (ram : RamAddr p → Byte) (host : HostAddr → Byte) :
    hostAfter (b.desc p) (b.stored ram b.beats.length) host = b.written host := by
  have hLo := h.first
  have hLe := h.le
  have hHi := h.hi_lt
  have hLength := b.length_le
  have hLen : (BitVec.ofNat 16 (hi + 1 - lo)).toNat = hi + 1 - lo := by
    rw [BitVec.toNat_ofNat]
    omega
  funext x
  have hOff : (x - (b.aw.addr + BitVec.ofNat 64 lo)).toNat = (2 ^ 64 - lo + (x - b.aw.addr).toNat) % 2 ^ 64 := by
    rw [← BitVec.sub_sub, BitVec.toNat_sub, BitVec.toNat_ofNat, Nat.mod_eq_of_lt (show lo < 2 ^ 64 by omega)]
  have hSmall := (x - b.aw.addr).isLt
  rw [h.desc_eq, hostAfter, hLen]
  change (if (x - (b.aw.addr + BitVec.ofNat 64 lo)).toNat < hi + 1 - lo then _ else _) = _
  rw [hOff]
  by_cases hIn : lo ≤ (x - b.aw.addr).toNat ∧ (x - b.aw.addr).toNat ≤ hi
  · obtain ⟨beat, hBeat, hBit⟩ := (h.strobed _).mpr hIn
    have hSub : (2 ^ 64 - lo + (x - b.aw.addr).toNat) % 2 ^ 64 = (x - b.aw.addr).toNat - lo := by omega
    rw [hSub, if_pos (by omega), ← BitVec.ofNat_add, Nat.add_sub_cancel' hIn.1,
      stored_ofNat ram hFits (by omega) hBeat hBit (by omega), written, hBeat]
    exact (if_pos hBit).symm
  · rw [if_neg (by omega)]
    exact (written_of_not_strobed host fun hStrobed => hIn ((h.strobed _).mp hStrobed)).symm

end Burst

section Runs

variable {bursts : Nat → Burst} {aws descs : Nat} {beats : List Beat} {s : State p}

theorem Stage.descs_le (h : Stage bursts aws beats descs s) : descs ≤ aws := by
  cases h with
  | idle | dmaBusy | finishing => exact Nat.le_refl _
  | toClient | storing | stored | toDma => exact Nat.le_succ _

theorem Stage.idle_of_awTaken (h : Stage bursts aws beats descs s) {i : Input} (hAw : awTaken s i = true) :
    Idle s ∧ descs = aws := by
  have hReady : s.awready = true := (Bool.and_eq_true_iff.mp hAw).1
  have hNot : s.awready ≠ false := fun hEq => absurd (hEq.symm.trans hReady) Bool.false_ne_true
  cases h with
  | idle hIdle => exact ⟨hIdle, rfl⟩
  | toClient hStage => exact absurd hStage.awready hNot
  | storing hStage => exact absurd hStage.awready hNot
  | stored hStage => exact absurd hStage.awready hNot
  | toDma hStage => exact absurd hStage.awready hNot
  | dmaBusy hStage => exact absurd hStage.awready hNot
  | finishing hStage => exact absurd hStage.awready hNot

variable (ram : RamAddr p → Byte) (inputs : Nat → Input) (bursts)

/-- What becomes of the bursts with one run of strobes; other bursts may come between them. -/
structure StrobedWrites : Prop where
  /-- One descriptor for each burst: never more than addresses, and as many when the next address is taken. -/
  atMost : ∀ t, (descsOn ram inputs t).length ≤ (awsOn ram inputs t).length
  exactly : ∀ t, awTaken (runAt ram inputs t) (inputs t) = true →
    (descsOn ram inputs t).length = (awsOn ram inputs t).length
  issued : ∀ k, FairUntil ram inputs k → ∃ t, k < (descsOn ram inputs t).length
  covers : ∀ t k d, (descsOn ram inputs t)[k]? = some d → (bursts k).OneRun →
    d.copies = (bursts k).strobedBytes p
  /-- While the DMA engine has the descriptor, a copy writes these bytes of the beats and no others. -/
  effect : ∀ t k, (runAt ram inputs t).stateQ = .waitDmaFin → (descsOn ram inputs t).length = k + 1 →
    (bursts k).OneRun → 64 * (bursts k).beats.length ≤ 2 ^ p.ramAddrWidth →
      ∀ host, hostAfter (runAt ram inputs t).desc (runAt ram inputs t).ram host = (bursts k).written host

variable {ram inputs bursts}

theorem strobedWrites_of_carries (h : Carries ram inputs bursts) : StrobedWrites bursts ram inputs := by
  refine ⟨fun t => (run_stage h t).1.descs_le, fun t hAw => ((run_stage h t).1.idle_of_awTaken hAw).2,
    fun k hFair => exists_desc h hFair, ?_, ?_⟩
  · rintro t k d hDesc ⟨lo, hi, hRun⟩
    have hLt := (List.getElem?_eq_some_iff.mp hDesc).1
    rw [(run_stage h t).2, List.getElem?_map, List.getElem?_range hLt] at hDesc
    cases hDesc
    exact hRun.copies_desc
  · rintro t k hPhase hLength ⟨lo, hi, hRun⟩ hFits host
    have hBusy := dmaBusy_of_phase h hPhase hLength
    obtain ⟨before, hRam⟩ := hBusy.ram
    rw [hBusy.desc, hRam]
    exact hRun.hostAfter_eq hFits before host

theorem firstBeats_before (k : Nat) : (bursts 0).beats <+: beatsBefore bursts (k + 1) := by
  induction k with
  | zero => exact List.prefix_rfl
  | succ k ih => exact ih.trans (List.prefix_append _ _)

theorem getElem?_beatsBefore {k j : Nat} (hj : j < (bursts 0).beats.length)
    (hk : j < (beatsBefore bursts k).length) : (beatsBefore bursts k)[j]? = (bursts 0).beats[j]? := by
  cases k with
  | zero => cases hk
  | succ k =>
    obtain ⟨rest, hRest⟩ := firstBeats_before k
    rw [← hRest, List.getElem?_append_left hj]

end Runs

section Spanning

def spanningBeats : List Beat := [⟨0, 0xF000000000000000, false⟩, ⟨1, 0x1F, true⟩]

theorem spanning_last (j : Nat) (h : j < spanningBeats.length) :
    spanningBeats[j].last = true ↔ j + 1 = spanningBeats.length := by
  match j, h with
  | 0, _ => exact iff_of_false Bool.false_ne_true (Nat.ne_of_beq_eq_false rfl)
  | 1, _ => exact iff_of_true rfl rfl

/-- Four bytes at the end of one beat and five at the start of the next. -/
def spanning : Burst := ⟨⟨0x11, 0x1000, 1⟩, spanningBeats, rfl, spanning_last⟩

theorem spanning_runsFrom : spanning.RunsFrom 60 68 := by
  refine ⟨by decide, by decide, by decide, fun n => ?_⟩
  have hAny : spanning.Strobed n ↔
      (spanningBeats[n / 64]?.any fun beat => beat.strb.getLsbD (n % 64)) = true := by
    rw [Option.any_eq_true]
    rfl
  rw [hAny]
  rcases Nat.lt_or_ge n 128 with hn | hn
  · have hAll : ∀ n < 128, (spanningBeats[n / 64]?.any fun beat => beat.strb.getLsbD (n % 64)) = true ↔
        60 ≤ n ∧ n ≤ 68 := by decide +kernel
    exact hAll n hn
  · have hNone : spanningBeats[n / 64]? = none := List.getElem?_eq_none (show 2 ≤ n / 64 by omega)
    rw [hNone]
    constructor
    · intro h
      cases h
    · omega

theorem carries_of_spanning {inputs : Nat → Input} (hAw : ∀ t, (inputs t).aw = spanning.aw)
    (hBeat : ∀ t, (inputs t).wvalid = true →
      spanning.beats[(beatsOn (p := ramOf64K) (fun _ => 0) inputs t).length]? = some (inputs t).beat) :
    Carries (p := ramOf64K) (fun _ => 0) inputs fun _ => spanning := by
  intro t
  refine ⟨fun _ => hAw t, fun hValid k hk => ?_⟩
  have hNext := hBeat t hValid
  exact (getElem?_beatsBefore (List.getElem?_eq_some_iff.mp hNext).1 hk).trans hNext

/-- Each party acts in the first cycle in which it is waited for. -/
def spanningInputs (t : Nat) : Input :=
  ⟨t == 0, spanning.aw, t == 2 || t == 3, if t == 2 then spanning.first else spanning.final, true, true, t == 6, 0x11,
    0, true, true, true⟩

theorem spanningInputs_carries : Carries (p := ramOf64K) (fun _ => 0) spanningInputs fun _ => spanning := by
  refine carries_of_spanning (fun _ => rfl) fun t hValid => ?_
  have ht : t = 2 ∨ t = 3 := by simpa [spanningInputs] using hValid
  rcases ht with rfl | rfl <;> decide +kernel

/-- The nine bytes from 0x103C on go to the host in one descriptor. -/
theorem strobedWrites_of_carries_spanning :
    StrobedWrites (p := ramOf64K) (fun _ => spanning) (fun _ => 0) spanningInputs ∧ spanning.OneRun ∧
      descsOn (p := ramOf64K) (fun _ => 0) spanningInputs 9 = [⟨0x103C, 60, 9, 0x11⟩] :=
  ⟨strobedWrites_of_carries spanningInputs_carries, ⟨60, 68, spanning_runsFrom⟩, by decide +kernel⟩

end Spanning

end FPsPIN.HostMem
