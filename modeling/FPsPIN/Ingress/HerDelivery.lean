import FPsPIN.Lib.Run
import FPsPIN.Ingress.IngressDma

/-!
# From completions to HERs

The completion latch of pspin_ingress_dma with pspin_her_gen behind it. A
completion is named by the cycle in which it arrives, so that two of them are
never confused. The latch always holds the latest one. Each completion is
handed over exactly once as long as none arrives on top of another one and
the latch is cleared after each HER; the latch fails both ways in the cycles
described at the end.
-/

namespace FPsPIN.HerDelivery

open HerGen IngressDma Run

variable {addrWidth lenWidth tagWidth : Nat}

structure State (addrWidth lenWidth tagWidth : Nat) where
  latch : Latch addrWidth lenWidth tagWidth
  store : Store

structure Input (addrWidth lenWidth tagWidth : Nat) where
  status : Option (DescStatus addrWidth lenWidth tagWidth)
  herReady : Bool
  conf : Conf
  /-- The allocator's descriptor and the readiness of the DMA engine. -/
  writeDesc : Option (WriteDesc addrWidth lenWidth tagWidth)
  dmaReady : Bool

def init : State addrWidth lenWidth tagWidth := ⟨Latch.init, Store.init⟩

section Combinational

variable (s : State addrWidth lenWidth tagWidth) (i : Input addrWidth lenWidth tagWidth)

def herGenReady : Bool := genReady s.store i.herReady

def herOut (msgidWidth : Nat) : Option (Her msgidWidth addrWidth) :=
  if s.latch.valid && i.herReady then some (her msgidWidth s.store s.latch.gen) else none

def accepted : Option (WriteDesc addrWidth lenWidth tagWidth) :=
  if i.dmaReady then dmaDesc i.writeDesc (herGenReady s i) else none

def step : State addrWidth lenWidth tagWidth where
  latch := s.latch.step i.status (herGenReady s i)
  store := s.store.step i.conf

end Combinational

section Runs

variable (inputs : Nat → Input addrWidth lenWidth tagWidth)

def runAt : Nat → State addrWidth lenWidth tagWidth := stateAt step init inputs

def arrivals (t : Nat) : List (Nat × Completion addrWidth lenWidth tagWidth) :=
  (completed (inputs t).status).toList.map (Prod.mk t)

/-- Completions without error before cycle t, with the cycles in which they arrive. -/
def completedOn : Nat → List (Nat × Completion addrWidth lenWidth tagWidth) := window (arrivals inputs) 0

def latched (t : Nat) : Option (Nat × Completion addrWidth lenWidth tagWidth) := (completedOn inputs t).getLast?

def taken (t : Nat) : List (Nat × Completion addrWidth lenWidth tagWidth) :=
  if (runAt inputs t).latch.valid && (inputs t).herReady then (latched inputs t).toList else []

def takenOn : Nat → List (Nat × Completion addrWidth lenWidth tagWidth) := window (taken inputs) 0

/-- Each completion so far was handed over once, in order, except perhaps the last one, which is still
offered. -/
def Delivered (t : Nat) : Prop :=
  takenOn inputs t = completedOn inputs t ∨
    ((runAt inputs t).latch.valid = true ∧ ∃ x, completedOn inputs t = takenOn inputs t ++ [x])

/-- With the latch set: no HER is taken when nothing is due, and no completion arrives while another one
is cleared, or waits. -/
def Orderly (t : Nat) : Prop :=
  (runAt inputs t).latch.valid = true →
    ((inputs t).herReady = true → takenOn inputs t ≠ completedOn inputs t) ∧
    ((inputs t).herReady = true → (runAt inputs t).store.ctxEnabled defaultCtxId = true →
      completed (inputs t).status = none) ∧
    ((inputs t).herReady = false → takenOn inputs t ≠ completedOn inputs t →
      completed (inputs t).status = none)

variable {inputs}

theorem completedOn_succ (t : Nat) : completedOn inputs (t + 1) = completedOn inputs t ++ arrivals inputs t :=
  window_succ _ (Nat.zero_le t)

theorem takenOn_succ (t : Nat) : takenOn inputs (t + 1) = takenOn inputs t ++ taken inputs t :=
  window_succ _ (Nat.zero_le t)

theorem latched_lt {t : Nat} {x : Nat × Completion addrWidth lenWidth tagWidth}
    (h : latched inputs t = some x) : x.1 < t := by
  obtain ⟨u, _, hu, hx⟩ := mem_window.mp (List.mem_of_getLast? h)
  rw [arrivals, List.mem_map] at hx
  obtain ⟨c, _, rfl⟩ := hx
  exact hu

theorem latched_succ (t : Nat) :
    latched inputs (t + 1) = ((completed (inputs t).status).map (Prod.mk t)).or (latched inputs t) := by
  rw [latched, completedOn_succ, arrivals, List.getLast?_append]
  cases completed (inputs t).status <;> rfl

theorem latch_succ (t : Nat) :
    (runAt inputs (t + 1)).latch =
      (runAt inputs t).latch.step (inputs t).status (herGenReady (runAt inputs t) (inputs t)) := rfl

theorem latched_of_valid {t : Nat} (h : (runAt inputs t).latch.valid = true) :
    ∃ x, latched inputs t = some x ∧ x.2 = (runAt inputs t).latch.gen := by
  induction t with
  | zero => cases h
  | succ t ih =>
    rw [latched_succ]
    rw [latch_succ] at h ⊢
    cases hArrives : completed (inputs t).status with
    | some c => exact ⟨(t, c), rfl, by rw [Latch.step, hArrives]; rfl⟩
    | none =>
      have hValid : (runAt inputs t).latch.valid = true := by
        rw [Latch.step, hArrives] at h
        simp only [Option.isSome_none, Bool.false_or] at h
        split_ifs at h
        exact h
      obtain ⟨x, hx, hGen⟩ := ih hValid
      exact ⟨x, hx, by rw [Latch.step, hArrives]; exact hGen⟩

theorem valid_succ (t : Nat) :
    (runAt inputs (t + 1)).latch.valid = true ↔
      ((runAt inputs t).latch.valid && herGenReady (runAt inputs t) (inputs t)) = false ∧
        ((completed (inputs t).status).isSome || (runAt inputs t).latch.valid) = true := by
  rw [latch_succ, Latch.step]
  cases (runAt inputs t).latch.valid && herGenReady (runAt inputs t) (inputs t) <;> simp

theorem herGenReady_of_not_ready {t : Nat} (h : (inputs t).herReady = false) :
    herGenReady (runAt inputs t) (inputs t) = false := by
  rw [herGenReady, genReady, h, Bool.and_false]

theorem delivered_succ_of_clear {t : Nat} (h : takenOn inputs t = completedOn inputs t)
    (hValid : (runAt inputs t).latch.valid = false) : Delivered inputs (t + 1) := by
  rw [Delivered, takenOn_succ, completedOn_succ, valid_succ, taken, arrivals, hValid, h]
  cases completed (inputs t).status with
  | none => exact Or.inl rfl
  | some c => exact Or.inr ⟨⟨rfl, rfl⟩, (t, c), by simp⟩

/-- While PsPIN is not ready, a completion may arrive only if none waits. -/
theorem delivered_succ_of_waiting {t : Nat} (h : Delivered inputs t) (hValid : (runAt inputs t).latch.valid = true)
    (hReady : (inputs t).herReady = false) :
    Delivered inputs (t + 1) ↔
      (takenOn inputs t ≠ completedOn inputs t → completed (inputs t).status = none) := by
  rw [Delivered, takenOn_succ, completedOn_succ, valid_succ, taken, arrivals, hValid, hReady,
    herGenReady_of_not_ready hReady]
  rcases h with hEq | ⟨_, x, hx⟩
  · rw [hEq]
    cases completed (inputs t).status <;> simp
  · rw [hx]
    cases completed (inputs t).status <;> simp

/-- When PsPIN takes a HER, one must be due, and a completion arriving with it survives only if the latch
is not cleared. -/
theorem delivered_succ_of_taken {t : Nat} (h : Delivered inputs t) (hValid : (runAt inputs t).latch.valid = true)
    (hReady : (inputs t).herReady = true) :
    Delivered inputs (t + 1) ↔
      takenOn inputs t ≠ completedOn inputs t ∧
        ((runAt inputs t).store.ctxEnabled defaultCtxId = true → completed (inputs t).status = none) := by
  obtain ⟨x, hx, _⟩ := latched_of_valid hValid
  have hGen : herGenReady (runAt inputs t) (inputs t) = (runAt inputs t).store.ctxEnabled defaultCtxId := by
    rw [herGenReady, genReady, hReady, Bool.and_true]
  rw [Delivered, takenOn_succ, completedOn_succ, valid_succ, taken, arrivals, hValid, hReady, hx, hGen]
  rcases h with hEq | ⟨_, y, hy⟩
  · -- The HER repeats the last completion, which differs from one that arrives now.
    rw [hEq]
    cases hArrives : completed (inputs t).status with
    | none => simp
    | some c =>
      have hOlder : x ≠ (t, c) := fun hSame => Nat.lt_irrefl t (by simpa [hSame] using latched_lt hx)
      simp [hOlder]
  · have hSame : y = x := by
      rw [latched, hy, List.getLast?_append] at hx
      exact Option.some.inj hx
    rw [hy, hSame]
    cases completed (inputs t).status <;> cases (runAt inputs t).store.ctxEnabled defaultCtxId <;> simp

theorem delivered_succ_iff {t : Nat} (h : Delivered inputs t) : Delivered inputs (t + 1) ↔ Orderly inputs t := by
  rw [Orderly]
  cases hValid : (runAt inputs t).latch.valid with
  | false =>
    have hEq := h.resolve_right (fun hOffered => by rw [hValid] at hOffered; cases hOffered.1)
    exact ⟨fun _ hNot => (by cases hNot), fun _ => delivered_succ_of_clear hEq hValid⟩
  | true =>
    cases hReady : (inputs t).herReady with
    | false =>
      rw [delivered_succ_of_waiting h hValid hReady]
      simp
    | true =>
      rw [delivered_succ_of_taken h hValid hReady]
      simp

/-- Every HER is that of the completion the latch holds, and each completion is handed over exactly once,
in order, if and only if every cycle is orderly. -/
theorem her_delivery_iff (msgidWidth : Nat) (inputs : Nat → Input addrWidth lenWidth tagWidth) :
    (∀ t x, herOut (runAt inputs t) (inputs t) msgidWidth = some x →
      ∃ b c, latched inputs t = some (b, c) ∧ taken inputs t = [(b, c)] ∧
        x = her msgidWidth (runAt inputs t).store c) ∧
      ((∀ t, Delivered inputs t) ↔ ∀ t, Orderly inputs t) := by
  constructor
  · intro t x hOut
    rw [herOut] at hOut
    split_ifs at hOut with hSent
    obtain ⟨⟨b, c⟩, hLatched, hGen⟩ := latched_of_valid (Bool.and_eq_true _ _ ▸ hSent).1
    refine ⟨b, c, hLatched, by rw [taken, if_pos hSent, hLatched]; rfl, ?_⟩
    rw [← Option.some.inj hOut, ← hGen]
  · constructor
    · exact fun hAll t => (delivered_succ_iff (hAll t)).mp (hAll (t + 1))
    · intro hOrderly t
      induction t with
      | zero => exact Or.inl rfl
      | succ t ih => exact (delivered_succ_iff ih).mpr (hOrderly t)

end Runs

section BackToBack

def packetDesc (addr : BitVec 32) (tag : BitVec 32) : WriteDesc 32 16 32 := ⟨addr, 64, tag⟩

def packetDone (addr : BitVec 32) (tag : BitVec 32) : Completion 32 16 32 := ⟨addr, 64, tag⟩

/-- The default context is enabled in cycle 0, two descriptors are accepted in cycles 1 and 2, and their
writes complete in cycles 3 and 4 while PsPIN is always ready. -/
def backToBack (t : Nat) : Input 32 16 32 where
  status :=
    if t = 3 then some ⟨packetDone 0x1c100000 0, 0⟩
    else if t = 4 then some ⟨packetDone 0x1c100600 4, 0⟩
    else none
  herReady := true
  conf := ⟨t == 0, fun _ => zeroMeta, fun _ => true⟩
  writeDesc :=
    if t = 1 then some (packetDesc 0x1c100000 0)
    else if t = 2 then some (packetDesc 0x1c100600 4)
    else none
  dmaReady := true

/-- The second completion arrives as the first one is taken and is lost: no HER follows. -/
theorem back_to_back_lost :
    accepted (runAt backToBack 1) (backToBack 1) = some (packetDesc 0x1c100000 0) ∧
      accepted (runAt backToBack 2) (backToBack 2) = some (packetDesc 0x1c100600 4) ∧
      completedOn backToBack 5 = [(3, packetDone 0x1c100000 0), (4, packetDone 0x1c100600 4)] ∧
      takenOn backToBack 5 = [(3, packetDone 0x1c100000 0)] ∧
      ∀ t, 5 ≤ t → herOut (runAt backToBack t) (backToBack t) 10 = none := by
  refine ⟨by decide +kernel, by decide +kernel, by decide +kernel, by decide +kernel, fun t ht => ?_⟩
  obtain ⟨d, rfl⟩ := Nat.exists_eq_add_of_le ht
  have hClear : ∀ d, (runAt backToBack (5 + d)).latch.valid = false := by
    intro d
    induction d with
    | zero => decide +kernel
    | succ d ih =>
      have hNone : (backToBack (5 + d)).status = none := by
        simp only [backToBack]
        rw [if_neg (by omega), if_neg (by omega)]
      rw [← Nat.add_assoc, latch_succ, Latch.step, hNone, ih]
      rfl
  rw [herOut, hClear d, Bool.false_and, if_neg Bool.false_ne_true]

end BackToBack

end FPsPIN.HerDelivery
