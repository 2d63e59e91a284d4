import FPsPIN.AxiDmaRd.Model
import FPsPIN.Lib.BusWords
import FPsPIN.Lib.Run

/-!
# The read bursts of a descriptor

The bursts of a descriptor ask for the words that its bytes are in, each word
once and in order, and no burst is longer than the bus allows or goes over the
end of a page. On a bus that takes addresses, every word is asked for at last.
-/

namespace FPsPIN.AxiDmaRd

open BusWords Run

variable {p : Params}

namespace Params

theorem strbWidth_pos : 0 < p.strbWidth := Nat.two_pow_pos _

theorem strbWidth_dvd_page : p.strbWidth ∣ 4096 := Nat.pow_dvd_pow (n := 12) 2 p.burstSize_le

end Params

/-- What a burst of the source has to be: not empty, within what is left, and to a word boundary if more is left. -/
structure Burst (p : Params) (addr left count : Nat) : Prop where
  pos : 0 < count
  le : count ≤ left
  cut : count = left ∨ (addr + count) % p.strbWidth = 0
  page : addr % 4096 + count ≤ 4096
  size : addr % p.strbWidth + count ≤ p.maxBurstSize

section Counts

variable {addr left : Nat}

theorem mod_page_mod : addr % 4096 % p.strbWidth = addr % p.strbWidth :=
  Nat.mod_mod_of_dvd addr p.strbWidth_dvd_page

theorem page_end_mod : (addr + (4096 - addr % 4096)) % p.strbWidth = 0 := by
  have hEnd : (addr + (4096 - addr % 4096)) % 4096 = 0 := by omega
  rw [← mod_page_mod, hEnd, Nat.zero_mod]

theorem strbWidth_le_maxBurstSize : p.strbWidth ≤ p.maxBurstSize :=
  Nat.le_mul_of_pos_left _ p.maxBurstLen_pos

theorem max_end_mod : (addr + (p.maxBurstSize - addr % p.strbWidth)) % p.strbWidth = 0 := by
  have hMod := Nat.mod_lt addr p.strbWidth_pos
  have hLe := strbWidth_le_maxBurstSize (p := p)
  have hSum : addr + (p.maxBurstSize - addr % p.strbWidth) = p.strbWidth * (addr / p.strbWidth) + p.maxBurstSize := by
    have hDiv := Nat.div_add_mod addr p.strbWidth
    omega
  rw [hSum, Nat.mul_add_mod, Params.maxBurstSize, Nat.mul_mod_left]

/-- If a burst of the greatest size would reach the end of the page, so does the part of it up to a boundary. -/
theorem page_rest_le (hCross : 4096 ≤ addr % 4096 + p.maxBurstSize) :
    4096 - addr % 4096 ≤ p.maxBurstSize - addr % p.strbWidth := by
  obtain ⟨q, hq⟩ := p.strbWidth_dvd_page
  have hMod := Nat.mod_lt addr p.strbWidth_pos
  have hIn := Nat.div_add_mod (addr % 4096) p.strbWidth
  rw [mod_page_mod] at hIn
  have hMax : p.maxBurstSize = p.strbWidth * p.maxBurstLen := Nat.mul_comm _ _
  have hLe : q ≤ addr % 4096 / p.strbWidth + p.maxBurstLen := by
    by_contra hLess
    have hMul := Nat.mul_le_mul_left p.strbWidth (Nat.lt_of_not_le hLess)
    rw [Nat.mul_succ, Nat.mul_add] at hMul
    omega
  have hMul := Nat.mul_le_mul_left p.strbWidth hLe
  rw [Nat.mul_add] at hMul
  omega

theorem burst_trWordCount (hLeft : 0 < left) (hLen : left < 2 ^ p.lenWidth) :
    Burst p addr left (trWordCount p addr left) := by
  have hMod := Nat.mod_lt addr p.strbWidth_pos
  have hPage := Nat.mod_lt addr (show 0 < 4096 by decide)
  have hLane : addr % p.strbWidth ≤ addr % 4096 := by
    rw [← mod_page_mod]
    exact Nat.mod_le _ _
  have hSize := strbWidth_le_maxBurstSize (p := p)
  have hPageEnd := @page_end_mod p addr
  have hMaxEnd := @max_end_mod p addr
  rw [trWordCount]
  split
  · next hSmall =>
    split
    · next hCross =>
      have hOver : 4096 ≤ addr % 4096 + left := by omega
      rw [Nat.mod_eq_of_lt (by omega)]
      exact ⟨by omega, by omega, .inr hPageEnd, by omega, by omega⟩
    · next hCross =>
      rw [Nat.mod_eq_of_lt hLen]
      exact ⟨hLeft, Nat.le_refl _, .inl rfl, by omega, by omega⟩
  · next hLarge =>
    split
    · next hCross =>
      have hRest := @page_rest_le p addr (by omega)
      rw [Nat.mod_eq_of_lt (by omega)]
      exact ⟨by omega, by omega, .inr hPageEnd, by omega, by omega⟩
    · next hCross =>
      rw [Nat.mod_eq_of_lt (by omega)]
      exact ⟨by omega, by omega, .inr hMaxEnd, by omega, by omega⟩

theorem pred_mod {n : Nat} (hPos : 0 < n) (hLe : n ≤ 2 ^ 32) : (n + (2 ^ 32 - 1)) % 2 ^ 32 = n - 1 := by
  have hSum : n + (2 ^ 32 - 1) = n - 1 + 2 ^ 32 := by omega
  rw [hSum, Nat.add_mod_right, Nat.mod_eq_of_lt (by omega)]

theorem Burst.words_le {count : Nat} (h : Burst p addr left count) : words p.strbWidth addr count ≤ p.maxBurstLen :=
  BusWords.words_le p.strbWidth_pos h.pos h.size

/-- The length field of a burst is the number of its words without one. -/
theorem Burst.arlen_succ {count : Nat} (h : Burst p addr left count)
    (hAligned : p.enableUnaligned = false → addr % p.strbWidth = 0) :
    arlenOf p addr count + 1 = words p.strbWidth addr count := by
  have hSum : (if p.enableUnaligned then (count + addr % p.strbWidth + (2 ^ 32 - 1)) % 2 ^ 32
      else (count + (2 ^ 32 - 1)) % 2 ^ 32) = count + addr % p.strbWidth - 1 := by
    have hPos := h.pos
    have hPage := h.page
    have hLane : addr % p.strbWidth ≤ 4096 :=
      (Nat.le_of_lt (Nat.mod_lt addr p.strbWidth_pos)).trans (Nat.le_of_dvd (by decide) p.strbWidth_dvd_page)
    split
    · exact pred_mod (by omega) (by omega)
    · next hOff =>
      rw [hAligned (Bool.eq_false_iff.mpr hOff), pred_mod hPos (by omega)]
      rfl
  have hWords := words_eq (a := addr) p.strbWidth_pos h.pos
  have hFew := h.words_le.trans p.maxBurstLen_le
  rw [arlenOf, hSum, Nat.mod_eq_of_lt (by omega), hWords]

end Counts

def burstWords (p : Params) (addr len : Nat) : List Nat :=
  (List.range (len + 1)).map fun k => (addr / p.strbWidth + k) * p.strbWidth

def wordsOf (d : Desc p) : List Nat := wordAddrs p.strbWidth (startAddr d) d.len.toNat

/-- A transfer of at least one byte that stays in the address space. -/
structure Desc.WellFormed (d : Desc p) : Prop where
  nonempty : 0 < d.len.toNat
  fits : startAddr d + d.len.toNat ≤ p.addrSpace

instance (d : Desc p) : Decidable d.WellFormed :=
  decidable_of_iff (0 < d.len.toNat ∧ startAddr d + d.len.toNat ≤ p.addrSpace)
    ⟨fun ⟨hNonempty, hFits⟩ => ⟨hNonempty, hFits⟩, fun ⟨hNonempty, hFits⟩ => ⟨hNonempty, hFits⟩⟩

def requests (s : State) (i : Input p) : List Nat :=
  if s.arvalid && i.arready then burstWords p s.araddr s.arlen else []

def unrequested (p : Params) (s : State) : List Nat :=
  (if s.arvalid then burstWords p s.araddr s.arlen else []) ++
    if s.axiState = .start then wordAddrs p.strbWidth s.addr s.opWordCount else []

structure Cutting (p : Params) (s : State) : Prop where
  pos : 0 < s.opWordCount
  len : s.opWordCount < 2 ^ p.lenWidth
  fits : s.addr + s.opWordCount ≤ p.addrSpace
  aligned : p.enableUnaligned = false → s.addr % p.strbWidth = 0

structure LegalBurst (p : Params) (addr len : Nat) : Prop where
  short : len < p.maxBurstLen
  page : addr / p.strbWidth * p.strbWidth % 4096 + (len + 1) * p.strbWidth ≤ 4096

structure RequestInv (p : Params) (s : State) : Prop where
  cutting : s.axiState = .start → Cutting p s
  legal : s.arvalid = true → LegalBurst p s.araddr s.arlen

section Step

variable {s : State} {i : Input p}

theorem cutting_load {d : Desc p} (hDesc : d.WellFormed) (hAddr : s.addr = startAddr d)
    (hCount : s.opWordCount = d.len.toNat) : Cutting p s where
  pos := hCount ▸ hDesc.nonempty
  len := hCount ▸ d.len.isLt
  fits := by rw [hAddr, hCount]; exact hDesc.fits
  aligned hOff := by rw [hAddr, startAddr, hOff, if_neg Bool.false_ne_true, Nat.mul_mod_left]

namespace Cutting

variable (h : Cutting p s)

include h

theorem burst : Burst p s.addr s.opWordCount (trWordCount p s.addr s.opWordCount) := burst_trWordCount h.pos h.len

theorem opWordCountNext_eq : opWordCountNext p s = s.opWordCount - trWordCount p s.addr s.opWordCount := by
  have hLe := h.burst.le
  have hLen := h.len
  rw [opWordCountNext, Nat.add_comm, Nat.add_sub_assoc hLe, Nat.add_mod_left, Nat.mod_eq_of_lt (by omega)]

theorem burstWords_eq : burstWords p s.addr (arlenOf p s.addr (trWordCount p s.addr s.opWordCount)) =
    wordAddrs p.strbWidth s.addr (trWordCount p s.addr s.opWordCount) := by
  rw [burstWords, h.burst.arlen_succ h.aligned]
  rfl

theorem legal : LegalBurst p s.addr (arlenOf p s.addr (trWordCount p s.addr s.opWordCount)) where
  short := by
    have hWords := h.burst.arlen_succ h.aligned
    have hLe := h.burst.words_le
    omega
  page := by
    obtain ⟨q, hq⟩ := p.strbWidth_dvd_page
    have hPos := h.burst.pos
    have hPage := h.burst.page
    have hIn := Nat.div_add_mod (s.addr % 4096) p.strbWidth
    rw [mod_page_mod] at hIn
    have hStart : s.addr / p.strbWidth * p.strbWidth % 4096 = p.strbWidth * (s.addr % 4096 / p.strbWidth) := by
      have hDiv := Nat.div_add_mod s.addr p.strbWidth
      have hPages := Nat.div_add_mod s.addr 4096
      have hSum : s.addr / p.strbWidth * p.strbWidth =
          4096 * (s.addr / 4096) + p.strbWidth * (s.addr % 4096 / p.strbWidth) := by
        rw [Nat.mul_comm]
        omega
      have hLt := Nat.mod_lt s.addr (show 0 < 4096 by decide)
      rw [hSum, Nat.mul_add_mod, Nat.mod_eq_of_lt (by omega)]
    have hLe : words p.strbWidth s.addr (trWordCount p s.addr s.opWordCount) ≤
        q - s.addr % 4096 / p.strbWidth := by
      refine BusWords.words_le p.strbWidth_pos hPos ?_
      rw [Nat.sub_mul, Nat.mul_comm q, ← hq, Nat.mul_comm _ p.strbWidth]
      omega
    rw [hStart, h.burst.arlen_succ h.aligned]
    have hMul := Nat.mul_le_mul_left p.strbWidth hLe
    rw [Nat.mul_sub, ← hq] at hMul
    rw [Nat.mul_comm (words _ _ _)]
    omega

theorem wordAddrs_eq : wordAddrs p.strbWidth s.addr s.opWordCount =
    wordAddrs p.strbWidth s.addr (trWordCount p s.addr s.opWordCount) ++
      if opWordCountNext p s = 0 then []
      else wordAddrs p.strbWidth ((s.addr + trWordCount p s.addr s.opWordCount) % p.addrSpace)
        (opWordCountNext p s) := by
  have hLe := h.burst.le
  have hFits := h.fits
  have hNext := h.opWordCountNext_eq
  split
  · next hDone =>
    have hAll : trWordCount p s.addr s.opWordCount = s.opWordCount := by omega
    rw [hAll, List.append_nil]
  · next hMore =>
    have hCut := h.burst.cut.resolve_left (by omega)
    rw [Nat.mod_eq_of_lt (by omega), hNext]
    exact wordAddrs_append p.strbWidth_pos hLe hCut

theorem next (hMore : opWordCountNext p s ≠ 0) {s' : State}
    (hAddr : s'.addr = (s.addr + trWordCount p s.addr s.opWordCount) % p.addrSpace)
    (hCount : s'.opWordCount = opWordCountNext p s) : Cutting p s' := by
  have hFits := h.fits
  have hLe := h.burst.le
  have hPos := h.burst.pos
  have hLen := h.len
  have hNext := h.opWordCountNext_eq
  have hSame : (s.addr + trWordCount p s.addr s.opWordCount) % p.addrSpace =
    s.addr + trWordCount p s.addr s.opWordCount := Nat.mod_eq_of_lt (by omega)
  have hCut := h.burst.cut.resolve_left (by omega)
  rw [hSame] at hAddr
  exact ⟨by omega, by omega, by omega, fun _ => hAddr ▸ hCut⟩

end Cutting

theorem loads_iff : loads p s i = true ↔ s.axiState = .idle ∧ s.descReady = true ∧ i.descValid = true := by
  rw [loads, Bool.and_eq_true, decide_eq_true_eq, Bool.and_eq_true]

theorem bursts_iff : bursts s = true ↔ s.axiState = .start ∧ s.arvalid = false := by
  rw [bursts, Bool.and_eq_true, decide_eq_true_eq, Bool.not_eq_true']

theorem loads_of_start (hState : s.axiState = .start) : loads p s i = false := by
  rw [Bool.eq_false_iff, ne_eq, loads_iff, hState]
  rintro ⟨hIdle, _⟩
  cases hIdle

theorem bursts_of_idle (hState : s.axiState = .idle) : bursts s = false := by
  rw [Bool.eq_false_iff, ne_eq, bursts_iff, hState]
  rintro ⟨hStart, _⟩
  cases hStart

theorem bursts_of_valid (hValid : s.arvalid = true) : bursts s = false := by
  rw [bursts, hValid, Bool.not_true, Bool.and_false]

theorem held_burst (hBursts : bursts s = false) :
    (if s.arvalid then burstWords p s.araddr s.arlen else []) =
      requests s i ++ if (step p s i).arvalid then burstWords p (step p s i).araddr (step p s i).arlen else [] := by
  simp only [requests, step, hBursts, Bool.false_eq_true, if_false]
  cases s.arvalid <;> cases i.arready <;> simp

variable (h : RequestInv p s) (hDesc : loads p s i = true → i.desc.WellFormed)

include h hDesc

theorem RequestInv.step : RequestInv p (step p s i) where
  cutting hNext := by
    cases hState : s.axiState with
    | idle =>
      have hLoads : loads p s i = true := by
        by_contra hNot
        have hIdle : (AxiDmaRd.step p s i).axiState = .idle := by
          simp only [AxiDmaRd.step, axiStateNext, hState, Bool.eq_false_iff.mpr hNot]
          rfl
        rw [hIdle] at hNext
        cases hNext
      refine cutting_load (hDesc hLoads) ?_ ?_
      · exact if_pos hLoads
      · exact if_pos hLoads
    | start =>
      have hLoads := loads_of_start (p := p) (i := i) hState
      cases hBursts : bursts s with
      | false =>
        have hAddr : (AxiDmaRd.step p s i).addr = s.addr := by simp [AxiDmaRd.step, hLoads, hBursts]
        have hCount : (AxiDmaRd.step p s i).opWordCount = s.opWordCount := by simp [AxiDmaRd.step, hLoads, hBursts]
        have hCutting := h.cutting hState
        exact ⟨hCount ▸ hCutting.pos, hCount ▸ hCutting.len, by rw [hAddr, hCount]; exact hCutting.fits,
          hAddr ▸ hCutting.aligned⟩
      | true =>
        refine (h.cutting hState).next ?_ ?_ ?_
        · intro hDone
          simp [AxiDmaRd.step, axiStateNext, hState, hBursts, hDone] at hNext
        · simp [AxiDmaRd.step, hLoads, hBursts]
        · simp [AxiDmaRd.step, hLoads, hBursts]
  legal hNext := by
    cases hBursts : bursts s with
    | true =>
      have hLegal := (h.cutting (bursts_iff.mp hBursts).1).legal
      simpa [AxiDmaRd.step, hBursts] using hLegal
    | false =>
      have hValid : s.arvalid = true := by
        simp only [AxiDmaRd.step, hBursts, Bool.false_eq_true, if_false, Bool.and_eq_true] at hNext
        exact hNext.1
      simpa [AxiDmaRd.step, hBursts] using h.legal hValid

omit hDesc in
theorem RequestInv.requests_append :
    requests s i ++ unrequested p (AxiDmaRd.step p s i) =
      unrequested p s ++ if loads p s i then wordsOf i.desc else [] := by
  cases hState : s.axiState with
  | idle =>
    have hBursts := bursts_of_idle hState
    rw [unrequested, unrequested, ← List.append_assoc, ← held_burst hBursts, hState]
    cases hLoads : loads p s i <;>
      simp [AxiDmaRd.step, axiStateNext, hState, hLoads, wordsOf]
  | start =>
    have hLoads := loads_of_start (p := p) (i := i) hState
    rw [hLoads, if_neg Bool.false_ne_true, List.append_nil]
    cases hBursts : bursts s with
    | false =>
      rw [unrequested, unrequested, ← List.append_assoc, ← held_burst hBursts, hState]
      simp [AxiDmaRd.step, axiStateNext, hState, hLoads, hBursts]
    | true =>
      have hValid := (bursts_iff.mp hBursts).2
      have hCutting := h.cutting hState
      have hNone : requests s i = [] := by simp [requests, hValid]
      rw [hNone, unrequested, unrequested, hState, hValid, if_neg Bool.false_ne_true, if_pos rfl,
        hCutting.wordAddrs_eq]
      have hWords := hCutting.burstWords_eq
      by_cases hDone : opWordCountNext p s = 0 <;>
        simp [AxiDmaRd.step, axiStateNext, hState, hLoads, hBursts, hDone, hWords]

end Step

section Runs

variable (p) (inputs : Nat → Input p)

def runAt (t : Nat) : State := stateAt (step p) init inputs t

def accepts (s : State) (i : Input p) : List (Desc p) := if loads p s i then [i.desc] else []

def accepted (t : Nat) : List (Desc p) := window (fun u => accepts p (runAt p inputs u) (inputs u)) 0 t

def requested (t : Nat) : List Nat := window (fun u => requests (runAt p inputs u) (inputs u)) 0 t

def DescsUntil (t : Nat) : Prop := ∀ u < t, (inputs u).descValid = true → (inputs u).desc.WellFormed

instance (t : Nat) : Decidable (DescsUntil p inputs t) := inferInstanceAs (Decidable (∀ u < t, _))

variable {p inputs} {t : Nat}

theorem DescsUntil.before (h : DescsUntil p inputs (t + 1)) : DescsUntil p inputs t :=
  fun u hu => h u (Nat.lt_succ_of_lt hu)

theorem requestInv_runAt (h : DescsUntil p inputs t) : RequestInv p (runAt p inputs t) := by
  induction t with
  | zero => exact ⟨(fun hStart => by cases hStart), (fun hValid => by cases hValid)⟩
  | succ t ih => exact (ih h.before).step fun hLoads => h t (Nat.lt_succ_self t) (loads_iff.mp hLoads).2.2

theorem requested_append (h : DescsUntil p inputs t) :
    requested p inputs t ++ unrequested p (runAt p inputs t) = (accepted p inputs t).flatMap wordsOf := by
  induction t with
  | zero => rfl
  | succ t ih =>
    have hStep := (requestInv_runAt h.before).requests_append (i := inputs t)
    have hWords : (if loads p (runAt p inputs t) (inputs t) then wordsOf (inputs t).desc else []) =
        (accepts p (runAt p inputs t) (inputs t)).flatMap wordsOf := by
      rw [accepts]
      split <;> simp
    rw [requested, accepted, window_succ _ (Nat.zero_le t), window_succ _ (Nat.zero_le t), List.flatMap_append,
      ← hWords, List.append_assoc]
    refine (congrArg (_ ++ ·) hStep).trans ?_
    rw [← List.append_assoc]
    exact congrArg (· ++ _) (ih h.before)

/-- The words of the accepted transfers are asked for once each and in order, in bursts that the bus allows. -/
theorem run_bursts (h : DescsUntil p inputs t) :
    requested p inputs t <+: (accepted p inputs t).flatMap wordsOf ∧
      ((runAt p inputs t).arvalid = true → LegalBurst p (runAt p inputs t).araddr (runAt p inputs t).arlen) :=
  ⟨⟨_, requested_append h⟩, (requestInv_runAt h).legal⟩

theorem requests_of_valid
    (hFair : ∀ t, ∃ u, t ≤ u ∧ ((runAt p inputs u).arvalid = true → (inputs u).arready = true))
    (hValid : (runAt p inputs t).arvalid = true) :
    ∃ u, t ≤ u ∧ requests (runAt p inputs u) (inputs u) ≠ [] := by
  have hStays : ∀ u, (runAt p inputs u).arvalid = true →
      ¬ ((runAt p inputs u).arvalid = true → (inputs u).arready = true) →
        (runAt p inputs (u + 1)).arvalid = true := by
    intro u hHolds hNot
    have hReady : (inputs u).arready = false := by
      by_contra hReady
      exact hNot fun _ => Bool.not_eq_false _ ▸ hReady
    change (step p (runAt p inputs u) (inputs u)).arvalid = true
    simp only [step, hHolds, hReady, bursts_of_valid hHolds]
    rfl
  obtain ⟨u, htu, hHolds, hTaken⟩ := exists_leaving hStays hValid (hFair t)
  refine ⟨u, htu, ?_⟩
  rw [requests, hHolds, hTaken hHolds, Bool.and_self, if_pos rfl, burstWords]
  simp

theorem requests_of_unrequested
    (hFair : ∀ t, ∃ u, t ≤ u ∧ ((runAt p inputs u).arvalid = true → (inputs u).arready = true))
    (hLeft : 0 < (unrequested p (runAt p inputs t)).length) :
    ∃ u, t ≤ u ∧ requests (runAt p inputs u) (inputs u) ≠ [] := by
  by_cases hNow : (runAt p inputs t).arvalid = true
  · exact requests_of_valid hFair hNow
  · rw [unrequested, if_neg hNow, List.nil_append] at hLeft
    have hStart : (runAt p inputs t).axiState = .start := by
      by_contra hIdle
      rw [if_neg hIdle] at hLeft
      cases hLeft
    -- The next burst is put into the register in this cycle.
    have hBursts : bursts (runAt p inputs t) = true := bursts_iff.mpr ⟨hStart, Bool.eq_false_iff.mpr hNow⟩
    obtain ⟨u, htu, hTaken⟩ := requests_of_valid (t := t + 1) hFair (if_pos hBursts)
    exact ⟨u, Nat.le_of_succ_le htu, hTaken⟩

theorem exists_length_requested {n : Nat} (hDescs : ∀ t, DescsUntil p inputs t)
    (hFair : ∀ t, ∃ u, t ≤ u ∧ ((runAt p inputs u).arvalid = true → (inputs u).arready = true))
    (hn : n < ((accepted p inputs t).flatMap wordsOf).length) : ∃ u, n < (requested p inputs u).length := by
  rw [accepted, window_flatMap] at hn
  refine exists_left (fun u => (unrequested p (runAt p inputs u)).length) (fun u => ?_)
    (fun u => requests_of_unrequested hFair) hn
  rw [← window_flatMap]
  exact List.length_append.symm.trans (congrArg List.length (requested_append (hDescs u)))

theorem accepted_words_mono {u : Nat} (h : t ≤ u) :
    (accepted p inputs t).flatMap wordsOf <+: (accepted p inputs u).flatMap wordsOf := by
  rw [accepted, accepted, window_flatMap, window_flatMap]
  exact window_mono _ h

/-- The n-th word of the accepted transfers is the n-th word asked for, whatever the stream behind the block does. -/
theorem words_requested {n addr : Nat} (hDescs : ∀ t, DescsUntil p inputs t)
    (hFair : ∀ t, ∃ u, t ≤ u ∧ ((runAt p inputs u).arvalid = true → (inputs u).arready = true))
    (hWord : ((accepted p inputs t).flatMap wordsOf)[n]? = some addr) :
    ∃ u, (requested p inputs u)[n]? = some addr := by
  obtain ⟨hn, -⟩ := List.getElem?_eq_some_iff.mp hWord
  obtain ⟨u, hu⟩ := exists_length_requested hDescs hFair hn
  refine ⟨u, ?_⟩
  -- Both lists are prefixes of the words accepted by the later of the two cycles.
  have hAsked : requested p inputs u <+: (accepted p inputs (max t u)).flatMap wordsOf :=
    List.IsPrefix.trans ⟨_, requested_append (hDescs u)⟩ (accepted_words_mono (Nat.le_max_right t u))
  have hTaken : (accepted p inputs t).flatMap wordsOf <+: (accepted p inputs (max t u)).flatMap wordsOf :=
    accepted_words_mono (Nat.le_max_left t u)
  have hLast : ((accepted p inputs (max t u)).flatMap wordsOf)[n]? = some addr := by
    rw [List.prefix_iff_getElem?.mp hTaken n hn, ← List.getElem?_eq_getElem hn, hWord]
  rw [List.getElem?_eq_getElem hu, ← List.prefix_iff_getElem?.mp hAsked n hu, hLast]

end Runs

section Unaligned

def twoLanes : Params where
  burstSize := 1
  addrWidth := 12
  lenWidth := 4
  maxBurstLen := 2
  enableUnaligned := true
  burstSize_le := Nat.le_add_left 1 11
  addrWidth_ge := Nat.le_refl 12
  addrWidth_le := Nat.le_add_left 12 20
  lenWidth_ge := Nat.le_add_left 1 3
  lenWidth_le := Nat.le_add_left 4 28
  maxBurstLen_pos := Nat.two_pos
  maxBurstLen_le := Nat.le_add_left 2 254

/-- A transfer of seven bytes from address 1 in two bursts; no word is answered. -/
def sevenBytes (t : Nat) : Input twoLanes where
  enable := true
  desc := ⟨1, 7, 7, ⟨1, 2, 3⟩⟩
  descValid := t == 1
  arready := true
  rdata _ := 0
  rresp := 0
  rvalid := false
  tready := true

/-- The first burst is asked for and the second one waits. -/
theorem run_bursts_sevenBytes :
    (requested twoLanes sevenBytes 5 = [0, 2] ∧ (runAt twoLanes sevenBytes 5).arvalid = true) ∧
      requested twoLanes sevenBytes 5 <+: (accepted twoLanes sevenBytes 5).flatMap wordsOf ∧
      ((runAt twoLanes sevenBytes 5).arvalid = true →
        LegalBurst twoLanes (runAt twoLanes sevenBytes 5).araddr (runAt twoLanes sevenBytes 5).arlen) :=
  ⟨by decide +kernel, run_bursts (by decide +kernel)⟩

theorem words_requested_sevenBytes : ∃ u, (requested twoLanes sevenBytes u)[3]? = some 6 := by
  have hDesc : (sevenBytes 0).desc.WellFormed := by decide +kernel
  exact words_requested (t := 2) (fun _ _ _ _ => hDesc) (fun t => ⟨t, Nat.le_refl t, fun _ => rfl⟩)
    (by decide +kernel)

end Unaligned

end FPsPIN.AxiDmaRd
