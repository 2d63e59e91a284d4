import FPsPIN.MpqEngine.Ordering

/-!
# The tasks at the output and the grants

A grant reads the metadata memory and the packet FIFO; their outputs come one
cycle later and are put together with three registers that were loaded at the
grant. HERs and feedbacks that arrive meanwhile do not matter: metadata is
written only for an MPQ in state Free, which is not granted, and the FIFO reads
its head before the push of the same cycle. Only the arbiter is assumed to pick
valid MPQs; feedbacks are arbitrary.
-/

namespace FPsPIN.MpqEngine

open Config Run

variable {p : Params}

/-- Address and size of the handler that a state sends a task for. -/
def handlerOf (mpqMeta : MpqMeta) : MpqState → Option (MemAddr × MemSize)
  | .header => some (mpqMeta.hhAddr, mpqMeta.hhSize)
  | .payload => some (mpqMeta.phAddr, mpqMeta.phSize)
  | .completion => some (mpqMeta.thAddr, mpqMeta.thSize)
  | .free | .headerRunning | .payloadDraining | .completionRunning => none

/-- The task is for MPQ j in the given state, with this metadata and this packet. -/
structure TaskOf (j : Index p) (state : MpqState) (mpqMeta : MpqMeta) (pkt : MpqPkt) (task : HandlerTask) : Prop where
  mpq : mpqIdx p task.msgid = j
  handler : handlerOf mpqMeta state = some (task.handlerFun, task.handlerFunSize)
  handlerMem : task.handlerMemAddr = mpqMeta.handlerMemAddr ∧ task.handlerMemSize = mpqMeta.handlerMemSize
  hostMem : task.hostMemAddr = mpqMeta.hostMemAddr ∧ task.hostMemSize = mpqMeta.hostMemSize
  scratchpad : task.scratchpadAddr = mpqMeta.scratchpadAddr ∧ task.scratchpadSize = mpqMeta.scratchpadSize
  packet : task.pktAddr = pkt.pktAddr ∧ task.pktSize = pkt.pktSize

theorem taskOf_newTask {j : Index p} {m : Mpq} (hValid : m.valid = true) (mpqMeta : MpqMeta) (pkt : MpqPkt)
    (triggers : Bool) : TaskOf j m.state mpqMeta pkt (newTask m.state mpqMeta pkt triggers j) := by
  rcases Mpq.valid_iff.mp hValid with hState | ⟨hState, _⟩ | hState
  all_goals
    rw [hState]
    exact ⟨mpqIdx_newTask _ _ _ _ _, rfl, ⟨rfl, rfl⟩, ⟨rfl, rfl⟩, ⟨rfl, rfl⟩, ⟨rfl, rfl⟩⟩

section Runs

variable (b : Boot) (inputs : Nat → Input p)

def metaWrites (j : Index p) (t : Nat) : List MpqMeta :=
  window (fun u => if mpqmetaWrite (runAt b inputs u) (inputs u) && newherMpqIdx (inputs u) == j then
    [(inputs u).her.mpqMeta] else []) 0 t

def grantCycles (t : Nat) : List Nat :=
  window (fun u => if grant (runAt b inputs u) (inputs u) then [u] else []) 0 t

def takenOn (t : Nat) : List HandlerTask := window (fun u => emits (runAt b inputs u) (inputs u)) 0 t

def OfGrant (u : Nat) (task : HandlerTask) : Prop :=
  ∃ mpqMeta pkt, (metaWrites b inputs (tasksentMpqIdx (inputs u)) u).getLast? = some mpqMeta ∧
    (packetsAt b inputs u (tasksentMpqIdx (inputs u))).head? = some pkt ∧
    TaskOf (tasksentMpqIdx (inputs u)) ((runAt b inputs u).mpqQ (tasksentMpqIdx (inputs u))).state mpqMeta pkt task

variable {b inputs}

theorem run_metaMem (j : Index p) (t : Nat) :
    (∀ mpqMeta ∈ (metaWrites b inputs j t).getLast?, (runAt b inputs t).metaMem j = mpqMeta) ∧
      (((runAt b inputs t).mpqQ j).state ≠ .free → metaWrites b inputs j t ≠ []) := by
  induction t with
  | zero =>
    constructor
    · intro mpqMeta h
      cases h
    · intro h
      exact absurd rfl h
  | succ t ih =>
    have hWindow : metaWrites b inputs j (t + 1) = metaWrites b inputs j t ++
        if mpqmetaWrite (runAt b inputs t) (inputs t) && newherMpqIdx (inputs t) == j then
          [(inputs t).her.mpqMeta] else [] := window_succ _ (Nat.zero_le t)
    have hMem := metaMem_step (runAt b inputs t) (inputs t) j
    cases hWrite : mpqmetaWrite (runAt b inputs t) (inputs t) && newherMpqIdx (inputs t) == j with
    | true =>
      rw [hWrite, if_pos rfl] at hWindow
      rw [Bool.and_eq_true, beq_iff_eq] at hWrite
      rw [if_pos hWrite] at hMem
      rw [hWindow]
      refine ⟨fun mpqMeta h => ?_, fun _ => List.append_ne_nil_of_right_ne_nil _ (List.cons_ne_nil _ _)⟩
      rw [List.getLast?_concat, Option.mem_some_iff] at h
      exact hMem.trans h
    | false =>
      rw [hWrite, if_neg Bool.false_ne_true, List.append_nil] at hWindow
      have hNot : ¬ (mpqmetaWrite (runAt b inputs t) (inputs t) = true ∧ newherMpqIdx (inputs t) = j) := by
        rw [← beq_iff_eq (a := newherMpqIdx (inputs t)), ← Bool.and_eq_true, hWrite]
        exact Bool.false_ne_true
      rw [if_neg hNot] at hMem
      rw [hWindow]
      refine ⟨fun mpqMeta h => hMem.trans (ih.1 mpqMeta h), fun hUsed => ih.2 fun hFree => hUsed ?_⟩
      -- Without a write an MPQ in state Free sees no HER.
      have hNew : (eventsOn (runAt b inputs t) (inputs t) j).herNew = false := by
        refine Bool.eq_false_iff.mpr fun hNew => hNot ?_
        obtain ⟨hHer, hIdx⟩ := Bool.and_eq_true_iff.mp hNew
        rw [beq_iff_eq] at hIdx
        exact ⟨Bool.and_eq_true_iff.mpr ⟨hHer, beq_iff_eq.mpr (hIdx ▸ hFree)⟩, hIdx⟩
      change (mpqD (runAt b inputs t) (inputs t) j).state = _
      rw [mpqD_apply, next_state, fsmState, hFree, hNew]
      rfl

theorem ofGrant_grantedTask (hArb : Arbitrated b inputs) {u : Nat}
    (hGrant : grant (runAt b inputs u) (inputs u) = true) :
    OfGrant b inputs u (grantedTask (runAt b inputs u) (inputs u)) := by
  have hBook := run_queueBook hArb u
  have hValid : ((runAt b inputs u).mpqQ (tasksentMpqIdx (inputs u))).valid = true :=
    hArb u (Bool.and_eq_true_iff.mp hGrant).2
  obtain ⟨hMem, hWritten⟩ := run_metaMem (b := b) (tasksentMpqIdx (inputs u)) u
  have hUsed : ((runAt b inputs u).mpqQ (tasksentMpqIdx (inputs u))).state ≠ .free := by
    intro hFree
    rw [Mpq.valid_iff, hFree] at hValid
    simp at hValid
  have hRead := hBook.refines.dataO_step (i := fifoInput (runAt b inputs u) (inputs u))
    (packetsAt_of_valid hArb hValid)
  refine ⟨_, _, List.getLast?_eq_some_getLast (hWritten hUsed), (congrArg List.head? hRead).trans rfl, ?_⟩
  rw [← hMem _ (List.getLast?_eq_some_getLast (hWritten hUsed))]
  exact taskOf_newTask hValid _ _ _

theorem grants_of_grantCycles (hArb : Arbitrated b inputs) (t : Nat) :
    List.Forall₂ (OfGrant b inputs) (grantCycles b inputs t)
      (window (fun u => grants (runAt b inputs u) (inputs u)) 0 t) := by
  induction t with
  | zero => exact .nil
  | succ t ih =>
    rw [grantCycles, window_succ _ (Nat.zero_le t), window_succ _ (Nat.zero_le t)]
    refine List.rel_append ih ?_
    rw [grants]
    cases hGrant : grant (runAt b inputs t) (inputs t) with
    | false => exact .nil
    | true => exact .cons (ofGrant_grantedTask hArb hGrant) .nil

theorem pipeline_run (t : Nat) :
    window (fun u => grants (runAt b inputs u) (inputs u)) 0 t =
      takenOn b inputs t ++ pending (runAt b inputs t) := by
  induction t with
  | zero => rfl
  | succ t ih =>
    rw [takenOn, window_succ _ (Nat.zero_le t), window_succ _ (Nat.zero_le t), ih, List.append_assoc,
      pipeline_step, ← List.append_assoc]
    rfl

/-- What holds before and in cycle t: the tasks taken and the one on offer are those of the grants, one for each, in
order; what is on offer leaves when the scheduler is ready and stays unchanged until then. -/
structure TaskOutput (b : Boot) (inputs : Nat → Input p) (t : Nat) : Prop where
  perGrant : List.Forall₂ (OfGrant b inputs) (grantCycles b inputs t)
    (takenOn b inputs t ++ if taskValid (runAt b inputs t) then [taskO (runAt b inputs t)] else [])
  stable : taskValid (runAt b inputs t) = true → (inputs t).taskReady = false →
    taskValid (runAt b inputs (t + 1)) = true ∧ taskO (runAt b inputs (t + 1)) = taskO (runAt b inputs t)

theorem mpqEngine_taskOutput (hArb : Arbitrated b inputs) (t : Nat) : TaskOutput b inputs t where
  perGrant := by
    have hGrants := grants_of_grantCycles hArb t
    rw [pipeline_run] at hGrants
    exact hGrants
  stable := taskO_stable _ _

/-- The message of two packets with all handlers, with a scheduler that is ready in every third cycle. -/
def slowScheduler (t : Nat) : Input deployed := { orderly t with taskReady := t % 3 == 2, feedbackValid := false }

theorem mpqEngine_taskOutput_slowScheduler :
    (takenOn blankBoot slowScheduler 6).length = 1 ∧ TaskOutput blankBoot slowScheduler 6 :=
  ⟨by decide +kernel, mpqEngine_taskOutput (arb_of_single lane (fun _ => rfl) (fun _ => rfl)) 6⟩

end Runs

end FPsPIN.MpqEngine
