import FPsPIN.Driver.Model
import FPsPIN.Lib.Run
import FPsPIN.PktMatch.Classification

/-!
# Reconfiguration under traffic

The driver, the match engine and the HER generator side by side. In a cycle
the host makes at most one register write; the two consumers read the
registers as they are at the start of the cycle. They latch in different ways:
the match engine copies the rules between frames, the HER generator copies the
contexts whenever they are valid. The driver looks at whole valid registers
and the hardware at their lowest bit, and an odd word is not zero: this is all
that ties the flags of the driver to the valid inputs of the hardware.
-/

namespace FPsPIN.Driver

open FPsPIN.Run FPsPIN.PktMatch FPsPIN.HerGen FPsPIN.Bytes

section Host

/-- The driver with the register writes of the probe function still to come. -/
structure Host where
  device : Device
  probing : List (Reg × BitVec 32)

inductive Op where
  | quiet
  | probe
  | store (r : Reg) (reg : BitVec 32)

/-- The host when the first write of the probe function has released the reset of the datapath. -/
def Host.released : Host :=
  ⟨⟨iowrite32 resetRegs (.clReset, 0), { probingApp with inReset := false }⟩, probeWrites.tail⟩

def Host.step (h : Host) : Op → Host
  | .quiet => h
  | .probe =>
    match h.probing with
    | [] => h
    | w :: ws => ⟨⟨iowrite32 h.device.regs w, if ws = [] then probedApp else h.device.app⟩, ws⟩
  | .store r reg => if h.probing = [] then { h with device := pspinRegStore h.device r reg } else h

end Host

structure System (p : Params) where
  host : Host
  pktMatch : State p
  herStore : Store

structure Traffic (p : Params) where
  rx : Option (Beat p)
  nicReady : Bool
  pspinReady : Bool
  metaReady : Bool

def Traffic.input {p : Params} (traffic : Traffic p) (regs : RegFile) : Input p :=
  ⟨traffic.rx, traffic.nicReady, traffic.pspinReady, matchConf regs, traffic.metaReady⟩

variable {p : Params}

def System.regs (s : System p) : RegFile := s.host.device.regs

/-- Output aux_rst_o. -/
def auxRst (regs : RegFile) : Bool := (regs .clReset).getLsbD 0

def System.released (p : Params) : System p :=
  ⟨Host.released, PktMatch.init p (matchConf Host.released.device.regs), Store.init⟩

/-- In reset the match engine is idle and still follows the rule registers. -/
def System.step (s : System p) (i : Op × Traffic p) : System p where
  host := s.host.step i.1
  pktMatch :=
    if auxRst s.regs then PktMatch.init p (matchConf s.regs)
    else PktMatch.step s.pktMatch (i.2.input s.regs)
  herStore := if auxRst s.regs then Store.init else s.herStore.step (herConf s.regs)

section Stores

variable {d : Device} {r : Reg} {reg : BitVec 32}

theorem pspinRegStore_of_rejects (h : rejects d r reg = true) : pspinRegStore d r reg = d := by
  have hCheck : (checkFunc d r reg).1 = false := by simpa [rejects] using h
  have hApp : (checkFunc d r reg).2 = d.app := by
    cases r with
    | clCtrl i =>
      simp only [checkFunc, checkClCtrl] at hCheck ⊢
      split_ifs at hCheck ⊢ <;> rfl
    | meValid => simp [checkFunc, checkMeEn] at hCheck
    | herValid =>
      simp only [checkFunc, checkHerEn] at hCheck ⊢
      split_ifs at hCheck ⊢
      rfl
    | meMode _ | meRule _ _ _ | ctxEnabled _ | herMeta _ _ => rfl
  rw [pspinRegStore, if_neg (by rw [hCheck]; exact Bool.false_ne_true), hApp]

def Reg.OfRules : Reg → Prop
  | .meMode _ | .meRule .. => True
  | _ => False

def Reg.OfContexts : Reg → Prop
  | .ctxEnabled _ | .herMeta .. => True
  | _ => False

/-- The valid bits of the hardware imply that the driver refuses to configure. -/
structure Guarded (d : Device) : Prop where
  matching : (matchConf d.regs).valid = true → d.app.inMeConf = false
  her : (herConf d.regs).valid = true → d.app.inHerConf = false

theorem ne_zero_of_odd (h : reg.getLsbD 0 = true) : reg ≠ 0 := by
  rintro rfl
  simp at h

theorem pspinRegStore_of_accepts (h : rejects d r reg = false) :
    pspinRegStore d r reg = ⟨Function.update d.regs r reg, (checkFunc d r reg).2⟩ := by
  have hCheck : (checkFunc d r reg).1 = true := by simpa [rejects] using h
  rw [pspinRegStore, if_pos hCheck]

theorem rules_update (regs : RegFile) (h : ¬ r.OfRules) :
    (matchConf (Function.update regs r reg)).rules = (matchConf regs).rules := by
  cases r <;> first | exact absurd trivial h | simp [matchConf]

theorem contexts_update (regs : RegFile) (h : ¬ r.OfContexts) :
    (herConf (Function.update regs r reg)).ctx = (herConf regs).ctx ∧
      (herConf (Function.update regs r reg)).ctxEnabled = (herConf regs).ctxEnabled := by
  cases r <;> first | exact absurd trivial h | simp [herConf, herMetaOf, funext_iff]

theorem inMeConf_of_accepts (h : rejects d r reg = false) (hRules : r.OfRules) : d.app.inMeConf = true := by
  cases r <;> first | exact hRules.elim | simpa [rejects, checkFunc, checkMeInConf] using h

theorem inHerConf_of_accepts (h : rejects d r reg = false) (hContexts : r.OfContexts) :
    d.app.inHerConf = true := by
  cases r <;> first | exact hContexts.elim | simpa [rejects, checkFunc, checkHerInConf] using h

theorem Guarded.rules_stable (h : Guarded d) (hValid : (matchConf d.regs).valid = true) :
    (matchConf (pspinRegStore d r reg).regs).rules = (matchConf d.regs).rules := by
  cases hRejects : rejects d r reg with
  | true => rw [pspinRegStore_of_rejects hRejects]
  | false =>
    rw [pspinRegStore_of_accepts hRejects]
    apply rules_update
    intro hRules
    exact absurd (inMeConf_of_accepts hRejects hRules) (by simp [h.matching hValid])

theorem Guarded.contexts_stable (h : Guarded d) (hValid : (herConf d.regs).valid = true) :
    (herConf (pspinRegStore d r reg).regs).ctx = (herConf d.regs).ctx ∧
      (herConf (pspinRegStore d r reg).regs).ctxEnabled = (herConf d.regs).ctxEnabled := by
  cases hRejects : rejects d r reg with
  | true => rw [pspinRegStore_of_rejects hRejects]; exact ⟨rfl, rfl⟩
  | false =>
    rw [pspinRegStore_of_accepts hRejects]
    apply contexts_update
    intro hContexts
    exact absurd (inHerConf_of_accepts hRejects hContexts) (by simp [h.her hValid])

theorem Guarded.store (h : Guarded d) (r : Reg) (reg : BitVec 32) : Guarded (pspinRegStore d r reg) := by
  cases hRejects : rejects d r reg with
  | true => rwa [pspinRegStore_of_rejects hRejects]
  | false =>
    rw [pspinRegStore_of_accepts hRejects]
    cases r with
    | clCtrl i =>
      have hApp : (checkFunc d (.clCtrl i) reg).2.inMeConf = d.app.inMeConf ∧
          (checkFunc d (.clCtrl i) reg).2.inHerConf = d.app.inHerConf := by
        simp only [checkFunc, checkClCtrl]
        split_ifs <;> exact ⟨rfl, rfl⟩
      constructor
      · intro hValid
        rw [hApp.1]
        exact h.matching (by simpa [matchConf] using hValid)
      · intro hValid
        rw [hApp.2]
        exact h.her (by simpa [herConf] using hValid)
    | meValid =>
      constructor
      · intro hValid
        have hOdd : reg.getLsbD 0 = true := by simpa [matchConf] using hValid
        simpa [checkFunc, checkMeEn] using ne_zero_of_odd hOdd
      · intro hValid
        exact h.her (by simpa [herConf] using hValid)
    | herValid =>
      constructor
      · intro hValid
        have hMe := h.matching (by simpa [matchConf] using hValid)
        simp only [checkFunc, checkHerEn]
        split_ifs <;> exact hMe
      · intro hValid
        have hOdd : reg.getLsbD 0 = true := by simpa [herConf] using hValid
        simp only [rejects, checkFunc, checkHerEn, if_neg (ne_zero_of_odd hOdd)] at hRejects ⊢
        split_ifs at hRejects ⊢
        · rfl
        · exact absurd hRejects.symm Bool.false_ne_true
    | meMode _ | meRule _ _ _ | ctxEnabled _ | herMeta _ _ =>
      constructor
      · intro hValid
        exact h.matching (by simpa [matchConf] using hValid)
      · intro hValid
        exact h.her (by simpa [herConf] using hValid)

end Stores

section Driver

/-- Neither valid register is set before the probe function ends, and its last write is the valid
register of the match engine. -/
def Host.Probing (h : Host) : Prop :=
  h.device.regs .meValid = 0 ∧ h.device.regs .herValid = 0 ∧
    ∃ rules : List (Reg × BitVec 32), (∀ w ∈ rules, w.1.OfRules) ∧ h.probing = rules ++ [(.meValid, 1)]

structure Host.Ok (h : Host) : Prop where
  released : h.device.regs .clReset = 0
  phase : h.Probing ∨ h.probing = [] ∧ Guarded h.device

theorem Host.ok_released : Host.released.Ok := by
  refine ⟨rfl, .inl ⟨rfl, rfl, probeWrites.tail.dropLast, ?_, rfl⟩⟩
  intro w hw
  obtain ⟨j, -, hw⟩ := List.mem_flatMap.mp (show w ∈ (List.finRange 4).flatMap fun j =>
    (List.finRange 4).map fun k => (Reg.meRule .start j k, bswap32 1) from hw)
  obtain ⟨k, -, rfl⟩ := List.mem_map.mp hw
  trivial

theorem Host.Ok.step {h : Host} (hOk : h.Ok) {op : Op} (hRelease : ∀ r reg, op = .store r reg → r ≠ .clReset) :
    (h.step op).Ok := by
  cases op with
  | quiet => exact hOk
  | probe =>
    obtain ⟨hReset, ⟨hMe, hHer, rules, hRules, hProbing⟩ | ⟨hProbing, hGuarded⟩⟩ := hOk
    · cases rules with
      | nil =>
        simp only [Host.step, hProbing, List.nil_append]
        refine ⟨?_, .inr ⟨rfl, ?_, ?_⟩⟩
        · simpa [iowrite32] using hReset
        · exact fun _ => rfl
        · intro hValid
          simp [herConf, iowrite32, hHer] at hValid
      | cons w rules =>
        have hW := hRules w (List.mem_cons_self ..)
        have hMeW : w.1 ≠ .meValid := by rintro hEq; rw [hEq] at hW; exact hW
        have hHerW : w.1 ≠ .herValid := by rintro hEq; rw [hEq] at hW; exact hW
        have hResetW : w.1 ≠ .clReset := by rintro hEq; rw [hEq] at hW; exact hW
        simp only [Host.step, hProbing, List.cons_append]
        refine ⟨?_, .inl ⟨?_, ?_, rules, ?_, rfl⟩⟩
        · exact (Function.update_of_ne hResetW.symm ..).trans hReset
        · exact (Function.update_of_ne hMeW.symm ..).trans hMe
        · exact (Function.update_of_ne hHerW.symm ..).trans hHer
        · exact fun x hx => hRules x (List.mem_cons_of_mem _ hx)
    · simp only [Host.step, hProbing]
      exact ⟨hReset, .inr ⟨hProbing, hGuarded⟩⟩
  | store r reg =>
    have hReset := hOk.released
    rw [Host.step]
    split_ifs with hEnd
    · obtain ⟨_, _, rules, _, hProbing⟩ | ⟨-, hGuarded⟩ := hOk.phase
      · simp [hEnd] at hProbing
      · refine ⟨?_, .inr ⟨hEnd, hGuarded.store r reg⟩⟩
        cases hRejects : rejects h.device r reg with
        | true => rwa [pspinRegStore_of_rejects hRejects]
        | false =>
          rw [pspinRegStore_of_accepts hRejects]
          exact (Function.update_of_ne (hRelease r reg rfl).symm ..).trans hReset
    · exact hOk

theorem Host.Ok.rules_stable {h : Host} (hOk : h.Ok) (hValid : (matchConf h.device.regs).valid = true) (op : Op) :
    (matchConf (h.step op).device.regs).rules = (matchConf h.device.regs).rules := by
  obtain ⟨hMe, -⟩ | ⟨hProbing, hGuarded⟩ := hOk.phase
  · simp [matchConf, hMe] at hValid
  · cases op with
    | quiet => rfl
    | probe => rw [Host.step, hProbing]
    | store r reg => rw [Host.step, if_pos hProbing]; exact hGuarded.rules_stable hValid

theorem Host.Ok.contexts_stable {h : Host} (hOk : h.Ok) (hValid : (herConf h.device.regs).valid = true)
    (op : Op) :
    (herConf (h.step op).device.regs).ctx = (herConf h.device.regs).ctx ∧
      (herConf (h.step op).device.regs).ctxEnabled = (herConf h.device.regs).ctxEnabled := by
  obtain ⟨-, hHer, -⟩ | ⟨hProbing, hGuarded⟩ := hOk.phase
  · simp [herConf, hHer] at hValid
  · cases op with
    | quiet => exact ⟨rfl, rfl⟩
    | probe => rw [Host.step, hProbing]; exact ⟨rfl, rfl⟩
    | store r reg => rw [Host.step, if_pos hProbing]; exact hGuarded.contexts_stable hValid

end Driver

section Runs

variable (inputs : Nat → Op × Traffic p)

def systemAt : Nat → System p := stateAt System.step (System.released p) inputs

/-- The register cl/ctrl 1 is not stored to. -/
def KeepsRelease : Prop := ∀ t r reg, (inputs t).1 = .store r reg → r ≠ .clReset

variable {inputs}

theorem systemAt_succ (t : Nat) : systemAt inputs (t + 1) = (systemAt inputs t).step (inputs t) := rfl

theorem ok_systemAt (hRelease : KeepsRelease inputs) (t : Nat) : (systemAt inputs t).host.Ok := by
  induction t with
  | zero => exact Host.ok_released
  | succ t ih => exact ih.step (hRelease t)

theorem auxRst_systemAt (hRelease : KeepsRelease inputs) (t : Nat) : auxRst (systemAt inputs t).regs = false := by
  rw [auxRst, System.regs, (ok_systemAt hRelease t).released]
  rfl

theorem pktMatch_succ (hRelease : KeepsRelease inputs) (t : Nat) :
    (systemAt inputs (t + 1)).pktMatch =
      PktMatch.step (systemAt inputs t).pktMatch ((inputs t).2.input (systemAt inputs t).regs) := by
  simp only [systemAt_succ, System.step, auxRst_systemAt hRelease, Bool.false_eq_true, if_false]

theorem herStore_succ (hRelease : KeepsRelease inputs) (t : Nat) :
    (systemAt inputs (t + 1)).herStore = (systemAt inputs t).herStore.step
    (herConf (systemAt inputs t).regs) := by
  simp only [systemAt_succ, System.step, auxRst_systemAt hRelease, Bool.false_eq_true, if_false]

variable (inputs)

/-- All-bypass rules, or the rule registers of the cycle before, valid in that cycle. -/
def FreshRules (t : Nat) : Prop :=
  (systemAt inputs t).pktMatch.store = ⟨fun _ => false, fun _ _ => noRule⟩ ∨
    ∃ u, u + 1 = t ∧ (matchConf (systemAt inputs u).regs).valid = true ∧
      (systemAt inputs t).pktMatch.store = (matchConf (systemAt inputs u).regs).rules

/-- The reset values, or the context registers of an earlier cycle, valid in that cycle. -/
def CompleteContexts (t : Nat) : Prop :=
  (systemAt inputs t).herStore = Store.init ∨
    ∃ u < t, (herConf (systemAt inputs u).regs).valid = true ∧
      (systemAt inputs t).herStore =
        ⟨(herConf (systemAt inputs u).regs).ctx, (herConf (systemAt inputs u).regs).ctxEnabled⟩

variable {inputs}

theorem freshRules_of_idle (hRelease : KeepsRelease inputs) {t : Nat}
    (hIdle : (systemAt inputs t).pktMatch.stateQ = .idle) : FreshRules inputs t := by
  cases t with
  | zero => exact .inl rfl
  | succ t =>
    have hStore : (systemAt inputs (t + 1)).pktMatch.store = (matchConf (systemAt inputs t).regs).stored := by
      rw [pktMatch_succ hRelease] at hIdle ⊢
      exact store_step_of_not_inFrame _ _ (fun h => h.1 hIdle)
    rw [FreshRules, hStore, MatchConf.stored]
    split_ifs with hValid
    · exact .inr ⟨t, rfl, hValid, rfl⟩
    · exact .inl rfl

/-- A frame uses the rules stored when its first beat was taken. -/
theorem store_of_inFrame (hRelease : KeepsRelease inputs) {c : Nat} (h : InFrame (systemAt inputs c).pktMatch) :
    ∃ a < c, (systemAt inputs a).pktMatch.stateQ = .idle ∧
      (received (systemAt inputs a).pktMatch ((inputs a).2.input (systemAt inputs a).regs)).isSome = true ∧
      ∀ u, a < u → u ≤ c → InFrame (systemAt inputs u).pktMatch ∧
        (systemAt inputs u).pktMatch.store = (systemAt inputs a).pktMatch.store := by
  induction c with
  | zero => exact absurd rfl h.1
  | succ c ih =>
    have hStep := h
    rw [pktMatch_succ hRelease] at hStep
    have hStore : (systemAt inputs (c + 1)).pktMatch.store = (systemAt inputs c).pktMatch.store := by
      rw [pktMatch_succ hRelease]
      exact store_step _ _ hStep
    obtain hFrame | ⟨hIdle, hReceived⟩ := inFrame_step _ _ hStep
    · obtain ⟨a, ha, hIdle, hReceived, hAll⟩ := ih hFrame
      refine ⟨a, by omega, hIdle, hReceived, fun u hau huc => ?_⟩
      obtain hLe | rfl : u ≤ c ∨ u = c + 1 := by omega
      · exact hAll u hau hLe
      · exact ⟨h, hStore.trans (hAll c ha (Nat.le_refl c)).2⟩
    · refine ⟨c, Nat.lt_succ_self c, hIdle, hReceived, fun u hau huc => ?_⟩
      obtain rfl : u = c + 1 := by omega
      exact ⟨h, hStore⟩

theorem completeContexts (hRelease : KeepsRelease inputs) (t : Nat) : CompleteContexts inputs t := by
  induction t with
  | zero => exact .inl rfl
  | succ t ih =>
    rw [CompleteContexts, herStore_succ hRelease, Store.step]
    split_ifs with hValid
    · exact .inr ⟨t, Nat.lt_succ_self t, hValid, rfl⟩
    · obtain hInit | ⟨u, hu, hValid, hStore⟩ := ih
      · exact .inl hInit
      · exact .inr ⟨u, Nat.lt_succ_of_lt hu, hValid, hStore⟩

/-- Atomic reconfiguration. Rules and contexts do not change while they are valid; a frame is
judged by rules that were complete when its first beat was taken and stay until its end; a HER is
built from complete contexts; a refused store changes nothing. -/
theorem reconfiguration_atomic (hRelease : KeepsRelease inputs) :
    (∀ t, (matchConf (systemAt inputs t).regs).valid = true →
      (matchConf (systemAt inputs (t + 1)).regs).rules = (matchConf (systemAt inputs t).regs).rules) ∧
    (∀ t, (herConf (systemAt inputs t).regs).valid = true →
      (herConf (systemAt inputs (t + 1)).regs).ctx = (herConf (systemAt inputs t).regs).ctx ∧
      (herConf (systemAt inputs (t + 1)).regs).ctxEnabled = (herConf (systemAt inputs t).regs).ctxEnabled) ∧
    (∀ c, InFrame (systemAt inputs c).pktMatch →
      ∃ a < c, (systemAt inputs a).pktMatch.stateQ = .idle ∧
        (received (systemAt inputs a).pktMatch ((inputs a).2.input (systemAt inputs a).regs)).isSome = true ∧
        FreshRules inputs a ∧
        ∀ u, a < u → u ≤ c → InFrame (systemAt inputs u).pktMatch ∧
          (systemAt inputs u).pktMatch.store = (systemAt inputs a).pktMatch.store) ∧
    (∀ c, stateD (systemAt inputs c).pktMatch ((inputs c).2.input (systemAt inputs c).regs) = .matching →
      InFrame (systemAt inputs c).pktMatch ∧
      verdictQ (systemAt inputs (c + 1)).pktMatch =
        verdict p (systemAt inputs c).pktMatch.store (systemAt inputs c).pktMatch.matcher) ∧
    (∀ t, CompleteContexts inputs t) ∧
    (∀ t r reg, (inputs t).1 = .store r reg → rejects (systemAt inputs t).host.device r reg = true →
      (systemAt inputs (t + 1)).host.device = (systemAt inputs t).host.device) := by
  refine ⟨?_, ?_, ?_, ?_, completeContexts hRelease, ?_⟩
  · intro t hValid
    exact (ok_systemAt hRelease t).rules_stable hValid _
  · intro t hValid
    exact (ok_systemAt hRelease t).contexts_stable hValid _
  · intro c hFrame
    obtain ⟨a, ha, hIdle, hReceived, hAll⟩ := store_of_inFrame hRelease hFrame
    exact ⟨a, ha, hIdle, hReceived, freshRules_of_idle hRelease hIdle, hAll⟩
  · intro c hMatching
    refine ⟨?_, ?_⟩
    · simp [InFrame, stateQ_of_matching _ _ hMatching]
    · rw [pktMatch_succ hRelease]
      exact verdictQ_step _ _ hMatching
  · intro t r reg hOp hRejects
    change ((systemAt inputs t).host.step (inputs t).1).device = _
    rw [hOp, Host.step]
    split_ifs
    · exact pspinRegStore_of_rejects hRejects
    · rfl

/-- The probe function, then a new mode for one ruleset, a refused store, and a frame. -/
def rewriting (t : Nat) : Op × Traffic deployed where
  fst := if t < 17 then .probe else match t with
    | 17 => .store .meValid 0
    | 18 => .store (.meMode firstRuleset) 1
    | 19 => .store .meValid 1
    | 20 => .store (.meMode (Fin.last 3)) 1
    | _ => .quiet
  snd := ⟨if t = 21 then some (word 5 true) else none, true, true, true⟩

theorem rewriting_keepsRelease : KeepsRelease rewriting := by
  intro t r reg hOp
  simp only [rewriting] at hOp
  split_ifs at hOp
  split at hOp <;> cases hOp <;> exact Reg.noConfusion

theorem reconfiguration_atomic_rewriting :
    KeepsRelease rewriting ∧ InFrame (systemAt rewriting 24).pktMatch ∧
      (systemAt rewriting 24).pktMatch.store.mode firstRuleset = true ∧
      rejects (systemAt rewriting 20).host.device (.meMode (Fin.last 3)) 1 = true ∧
      (systemAt rewriting 21).host.device = (systemAt rewriting 20).host.device ∧
      ∃ a < 24, FreshRules rewriting a :=
  have hAtomic := reconfiguration_atomic rewriting_keepsRelease
  have hFrame : InFrame (systemAt rewriting 24).pktMatch := ⟨by decide +kernel, by decide +kernel⟩
  have hRejects : rejects (systemAt rewriting 20).host.device (.meMode (Fin.last 3)) 1 = true := by decide +kernel
  have ⟨a, ha, _, _, hFresh, _⟩ := hAtomic.2.2.1 24 hFrame
  ⟨rewriting_keepsRelease, hFrame, by decide +kernel, hRejects, hAtomic.2.2.2.2.2 20 _ _ rfl hRejects, a, ha,
    hFresh⟩

end Runs

end FPsPIN.Driver
