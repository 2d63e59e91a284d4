import FPsPIN.MpqEngine.Ordering
import FPsPIN.RrArbTree.Arbiter

/-!
# The mpq_engine with its arbiter

The engine of the model takes the choice of its arbiter as an input. Here the
arbiter is the instance of rr_arb_tree that the source has. It locks its
decision while the engine is stalled, so a queue must not become invalid before
it is granted; the queues keep to that. It follows that the arbiter always
chooses a valid queue, and that no valid queue is passed over for long.
-/

namespace FPsPIN.MpqEngine

open Config Run
open RrArbTree (Held vec vec_val choice)

variable {p : Params}

theorem Queued.valid_next {m : Mpq} {len : Nat} (h : Queued m len) (hRoom : len + 1 < counterRange)
    (hValid : m.valid = true) {e : FsmEvents} (hNot : e.taskSent = false) : (m.next e).valid = true := by
  have hLength := h.next_length_eq (e := e) (fun hSent => absurd (hNot ▸ hSent) Bool.false_ne_true) hRoom
  rw [hNot, Bool.false_and, Bool.toNat_false, Nat.sub_zero] at hLength
  rw [Mpq.valid_iff, next_state, hLength]
  rcases Mpq.valid_iff.mp hValid with hState | ⟨hState, hPos⟩ | hState <;> simp [fsmState, hState, hNot]
  omega

def mpqValid (s : State p) (j : Index p) : Bool := (s.mpqQ j).valid

structure Arbitration (p : Params) where
  engine : State p
  arb : RrArbTree.State

section Cycle

variable (x : Arbitration p) (i : Input p)

def arbInput : RrArbTree.Input Unit := ⟨vec (mpqValid x.engine), arbReady x.engine i, fun _ => ()⟩

def mpqArbIdx : Index p := choice p.numMpq_pos () x.arb (arbInput x i)

def engineInput : Input p := { i with mpqArbIdx := mpqArbIdx x i }

def arbitrationStep : Arbitration p where
  engine := step x.engine (engineInput x i)
  arb := RrArbTree.step () p.numMpq x.arb (arbInput x i)

variable {x i}

theorem valid_step {queues : Index p → List MpqPkt} (hBook : QueueBook x.engine queues) {j : Index p}
    (hValid : (x.engine.mpqQ j).valid = true) (hNot : (eventsOn x.engine (engineInput x i) j).taskSent = false) :
    ((arbitrationStep x i).engine.mpqQ j).valid = true := by
  change (mpqD x.engine (engineInput x i) j).valid = true
  rw [mpqD_apply]
  exact (hBook.queued j).valid_next (hBook.room j) hValid hNot

variable (hHeld : Held p.numMpq x.arb (vec (mpqValid x.engine)))

include hHeld

theorem choice_mpqArbIdx (hValid : arbValid x.engine = true) :
    RrArbTree.reqO () p.numMpq x.arb (arbInput x i) = true ∧
      (mpqArbIdx x i).val = RrArbTree.idxO () p.numMpq x.arb (arbInput x i) ∧
      (x.engine.mpqQ (mpqArbIdx x i)).valid = true := by
  obtain ⟨j, hj⟩ := of_decide_eq_true hValid
  exact Held.choice (f := mpqValid x.engine) (i := arbInput x i) hHeld p.numMpq_pos rfl hj

theorem reqO_eq_arbValid : RrArbTree.reqO () p.numMpq x.arb (arbInput x i) = arbValid x.engine := by
  rw [Bool.eq_iff_iff]
  constructor
  · intro hReq
    obtain ⟨k, hk, hValid⟩ := (Held.reqO_iff (i := arbInput x i) hHeld p.numMpq_pos).mp hReq
    exact decide_eq_true ⟨⟨k, hk⟩, (vec_val _ ⟨k, hk⟩).symm.trans hValid⟩
  · intro hValid
    exact (choice_mpqArbIdx hHeld hValid).1

theorem grant_eq : ((arbInput x i).gnt && RrArbTree.reqO () p.numMpq x.arb (arbInput x i)) =
    grant x.engine (engineInput x i) := by
  rw [reqO_eq_arbValid hHeld]
  rfl

/-- Queues that are not granted stay valid, so the lock of the arbiter is respected. -/
theorem held_step {queues : Index p → List MpqPkt} (hBook : QueueBook x.engine queues) :
    Held p.numMpq (arbitrationStep x i).arb (vec (mpqValid (arbitrationStep x i).engine)) := by
  refine Held.step (i := arbInput x i) hHeld p.numMpq_pos ?_
  intro hGnt k hk hReq
  rw [vec_val _ ⟨k, hk⟩]
  refine valid_step hBook ((vec_val _ ⟨k, hk⟩).symm.trans hReq) ?_
  rw [eventsOn, grant, show arbReady x.engine (engineInput x i) = false from hGnt, Bool.false_and, Bool.false_and]

end Cycle

section Runs

variable (b : Boot) (inputs : Nat → Input p)

def arbitrationAt (t : Nat) : Arbitration p := stateAt arbitrationStep ⟨init p b, RrArbTree.init⟩ inputs t

def engineInputs (t : Nat) : Input p := engineInput (arbitrationAt b inputs t) (inputs t)

def arbInputs (t : Nat) : RrArbTree.Input Unit := arbInput (arbitrationAt b inputs t) (inputs t)

variable {b inputs}

theorem arb_arbitrationAt (t : Nat) :
    (arbitrationAt b inputs t).arb = RrArbTree.runAt () p.numMpq (arbInputs b inputs) t :=
  part_stateAt Arbitration.arb _ (fun _ => rfl) t

theorem run_held (t : Nat) :
    (∃ queues, QueueBook (arbitrationAt b inputs t).engine queues) ∧
      Held p.numMpq (arbitrationAt b inputs t).arb (vec (mpqValid (arbitrationAt b inputs t).engine)) := by
  induction t with
  | zero =>
    exact ⟨⟨_, FifoEngine.init_refines b.pkt b.pktRdata, fun _ => init_mpqBook.toQueued⟩, .init _⟩
  | succ t ih =>
    obtain ⟨⟨queues, hBook⟩, hHeld⟩ := ih
    exact ⟨⟨_, hBook.step fun hValid => (choice_mpqArbIdx hHeld hValid).2.2⟩, held_step hHeld hBook⟩

theorem mpqArbIdx_succ {t : Nat} (hValid : arbValid (arbitrationAt b inputs t).engine = true)
    (hNot : grant (arbitrationAt b inputs t).engine (engineInputs b inputs t) = false) :
    (engineInputs b inputs (t + 1)).mpqArbIdx = (engineInputs b inputs t).mpqArbIdx := by
  have hReq := (reqO_eq_arbValid (i := inputs t) (run_held t).2).trans hValid
  have hGnt : (arbInput (arbitrationAt b inputs t) (inputs t)).gnt = false := by
    rw [grant, hValid, Bool.and_true] at hNot
    exact hNot
  exact RrArbTree.choice_step p.numMpq_pos p.numMpq_pos hReq hGnt

/-- Whatever the inputs are, the arbiter has a request exactly if a queue is valid, it then chooses a valid queue, and
it stays with its choice until the engine takes it. -/
theorem mpqEngine_arbitration (t : Nat) :
    RrArbTree.reqO () p.numMpq (arbitrationAt b inputs t).arb (arbInputs b inputs t) =
        arbValid (arbitrationAt b inputs t).engine ∧
      (arbValid (arbitrationAt b inputs t).engine = true →
        ((arbitrationAt b inputs t).engine.mpqQ (engineInputs b inputs t).mpqArbIdx).valid = true ∧
        (grant (arbitrationAt b inputs t).engine (engineInputs b inputs t) = false →
          (engineInputs b inputs (t + 1)).mpqArbIdx = (engineInputs b inputs t).mpqArbIdx)) :=
  ⟨reqO_eq_arbValid (run_held t).2, fun hValid =>
    ⟨(choice_mpqArbIdx (run_held t).2 hValid).2.2, fun hNot => mpqArbIdx_succ hValid hNot⟩⟩

def grantedOn (b : Boot) (inputs : Nat → Input p) (t : Nat) : List (Index p) :=
  if grant (arbitrationAt b inputs t).engine (engineInputs b inputs t) then
    [(engineInputs b inputs t).mpqArbIdx]
  else []

def readyCycles (inputs : Nat → Input p) (t : Nat) : List Unit := if (inputs t).taskReady then [()] else []

theorem granted_arbInputs (t : Nat) :
    RrArbTree.granted () p.numMpq (arbInputs b inputs) t = (grantedOn b inputs t).map Fin.val := by
  have hHeld := (@run_held p b inputs t).2
  have hGrants : ((arbInputs b inputs t).gnt &&
      RrArbTree.reqO () p.numMpq (arbitrationAt b inputs t).arb (arbInputs b inputs t)) =
        grant (arbitrationAt b inputs t).engine (engineInputs b inputs t) := grant_eq hHeld
  rw [RrArbTree.granted, ← arb_arbitrationAt, grantedOn, hGrants]
  split
  · next hGrant =>
    exact congrArg (fun k => [k]) (choice_mpqArbIdx hHeld (Bool.and_eq_true_iff.mp hGrant).2).2.1.symm
  · rfl

theorem valid_until {j : Index p} {t u : Nat} (htu : t ≤ u)
    (hValid : ((arbitrationAt b inputs t).engine.mpqQ j).valid = true) (hNot : j ∉ window (grantedOn b inputs) t u) :
    ((arbitrationAt b inputs u).engine.mpqQ j).valid = true := by
  induction u, htu using Nat.le_induction with
  | base => exact hValid
  | succ u htu ih =>
    rw [window_succ _ htu, List.mem_append, not_or] at hNot
    obtain ⟨queues, hBook⟩ := (@run_held p b inputs u).1
    refine valid_step hBook (ih hNot.1) ?_
    rw [Bool.eq_false_iff]
    intro hSent
    obtain ⟨hGrant, hIdx⟩ := Bool.and_eq_true_iff.mp hSent
    apply hNot.2
    rw [grantedOn, engineInputs, if_pos hGrant, List.mem_singleton]
    exact (of_decide_eq_true hIdx).symm

/-- A valid queue is granted before the scheduler was ready more often than there are queues. -/
theorem granted_of_valid {j : Index p} {t u : Nat} (htu : t ≤ u)
    (hValid : ((arbitrationAt b inputs t).engine.mpqQ j).valid = true)
    (hMany : p.numMpq < (window (readyCycles inputs) t u).length) : j ∈ window (grantedOn b inputs) t u := by
  by_contra hNot
  have hStays : ∀ v, t ≤ v → v < u → ((arbitrationAt b inputs v).engine.mpqQ j).valid = true := by
    intro v htv hvu
    refine valid_until htv hValid fun hMem => hNot ?_
    rw [← window_append _ htv (Nat.le_of_lt hvu)]
    exact List.mem_append_left _ hMem
  have hReq : ∀ v, t ≤ v → v < u → (arbInputs b inputs v).req j = true := by
    intro v htv hvu
    exact (vec_val _ j).trans (hStays v htv hvu)
  -- in every cycle in which the scheduler is ready the valid queue makes the engine grant some queue
  have hGrants : (window (readyCycles inputs) t u).length ≤
      (window (RrArbTree.granted () p.numMpq (arbInputs b inputs)) t u).length := by
    refine length_window_le fun v htv hvu => ?_
    rw [granted_arbInputs, List.length_map, readyCycles, grantedOn]
    split
    · next hReady =>
      have hArb : arbValid (arbitrationAt b inputs v).engine = true :=
        decide_eq_true ⟨j, hStays v htv hvu⟩
      rw [if_pos ((grant_of_ready (i := engineInputs b inputs v) hReady).trans hArb)]
      exact Nat.le_refl 1
    · exact Nat.zero_le _
  have hMem := RrArbTree.granted_of_many j.isLt htu hReq (Nat.lt_of_lt_of_le hMany hGrants)
  obtain ⟨v, htv, hvu, hIn⟩ := mem_window.mp hMem
  rw [granted_arbInputs] at hIn
  obtain ⟨k, hk, hEq⟩ := List.mem_map.mp hIn
  exact hNot (mem_window.mpr ⟨v, htv, hvu, Fin.ext hEq ▸ hk⟩)

end Runs

def twoQueues : Params := ⟨2, 1, Nat.le_add_left 2 126, Nat.le_add_left 1 9⟩

def twoMessages (t : Nat) : Input twoQueues where
  herValid := decide (t ≤ 1)
  her := ⟨if t = 0 then 0 else 1, true, 0, 64, 64, withCompletion⟩
  feedbackValid := false
  feedback := ⟨0, 0, 0, false⟩
  taskReady := true
  nicFeedbackReady := true
  mpqArbIdx := ⟨0, twoQueues.numMpq_pos⟩

theorem granted_of_valid_twoMessages :
    (⟨1, Nat.lt_add_one 1⟩ : Index twoQueues) ∈ window (grantedOn blankBoot twoMessages) 2 5 :=
  granted_of_valid (b := blankBoot) (t := 2) (u := 5) (by decide) (by decide +kernel) (by decide +kernel)

end FPsPIN.MpqEngine
