import FPsPIN.HostDirect.Block

/-!
# Commands and host transfers

Every accepted write has one address and one data beat on the host port, in
the order of acceptance.
-/

namespace FPsPIN.HostDirect

open CmdDescr CommonCells Config Run

variable (p : Params) {numCmds : Nat}

section Cycle

variable (s : State numCmds) (i : Input numCmds)

def acceptsWrite : List (PspinCmd numCmds) := if writePush p s i then [i.cmdReq] else []

def sendsAw : List HostAddr := if i.awReady && awValid s then s.aw.take 1 else []

def sendsW : List WDescr := if i.wReady && wValid s then s.w.take 1 else []

theorem not_full {Word : Type} {depth : Nat} {queue : List Word} (h : full depth queue = false) :
    queue.length < depth := Nat.lt_of_not_le (of_decide_eq_false h)

theorem room_of_writePush (h : writePush p s i = true) :
    s.aw.length < p.awFifoDepth ∧ s.w.length < p.wFifoDepth ∧ s.writeId.length < p.writesFifoDepth := by
  rw [writePush, cmdReqReady] at h
  cases hDir : (descr i).nicToHost with
  | false => simp [hDir] at h
  | true =>
    simp only [hDir, Bool.true_and, Bool.not_true, Bool.false_and, Bool.or_false, Bool.and_true, Bool.and_eq_true,
      Bool.not_eq_true'] at h
    exact ⟨not_full h.2.1.1, not_full h.2.1.2, not_full h.2.2⟩

theorem room_of_readPush (h : readPush p s i = true) :
    s.ar.length < p.arFifoDepth ∧ s.readId.length < p.readsFifoDepth := by
  rw [readPush, cmdReqReady] at h
  cases hDir : (descr i).nicToHost with
  | true => simp [hDir] at h
  | false =>
    simp only [hDir, Bool.false_and, Bool.not_false, Bool.true_and, Bool.false_or, Bool.and_true,
      Bool.and_eq_true, Bool.not_eq_true'] at h
    exact ⟨not_full h.2.1, not_full h.2.2⟩

theorem aw_step : sendsAw s i ++ (step p s i).aw =
    s.aw ++ (acceptsWrite p s i).map fun cmd => (hostDirectCmd cmd.words).hostAddr := by
  refine (take_append_fifoV3Step fun hPush => (room_of_writePush p s i hPush).1).trans ?_
  rw [acceptsWrite]
  cases writePush p s i <;> rfl

theorem w_step : sendsW s i ++ (step p s i).w =
    s.w ++ (acceptsWrite p s i).map fun cmd => wDescrOf (hostDirectCmd cmd.words) := by
  refine (take_append_fifoV3Step fun hPush => (room_of_writePush p s i hPush).2.1).trans ?_
  rw [acceptsWrite]
  cases writePush p s i <;> rfl

end Cycle

section Runs

variable (inputs : Nat → Input numCmds)

def runAt (t : Nat) : State numCmds := stateAt (step p) (init numCmds) inputs t

def acceptedWrites (t : Nat) : List (PspinCmd numCmds) :=
  window (fun u => acceptsWrite p (runAt p inputs u) (inputs u)) 0 t

def sentAw (t : Nat) : List HostAddr := window (fun u => sendsAw (runAt p inputs u) (inputs u)) 0 t

def sentW (t : Nat) : List WDescr := window (fun u => sendsW (runAt p inputs u) (inputs u)) 0 t

theorem sentAw_append (t : Nat) : sentAw p inputs t ++ (runAt p inputs t).aw =
    (acceptedWrites p inputs t).map fun cmd => (hostDirectCmd cmd.words).hostAddr := by
  rw [acceptedWrites, map_window]
  exact window_append_queue (fun u => (runAt p inputs u).aw) rfl
    (fun u => aw_step p (runAt p inputs u) (inputs u)) t

theorem sentW_append (t : Nat) : sentW p inputs t ++ (runAt p inputs t).w =
    (acceptedWrites p inputs t).map fun cmd => wDescrOf (hostDirectCmd cmd.words) := by
  rw [acceptedWrites, map_window]
  exact window_append_queue (fun u => (runAt p inputs u).w) rfl
    (fun u => w_step p (runAt p inputs u) (inputs u)) t

structure Fair : Prop where
  aw : ∀ t, ∃ u, t ≤ u ∧ (inputs u).awReady = true
  w : ∀ t, ∃ u, t ≤ u ∧ (inputs u).wReady = true

variable {inputs}

theorem sendsAw_ne_nil {s : State numCmds} {i : Input numCmds} (hReady : i.awReady = true) (hQueue : s.aw ≠ []) :
    sendsAw s i ≠ [] := by
  obtain ⟨addr, rest, hAw⟩ := List.exists_cons_of_ne_nil hQueue
  rw [sendsAw, awValid, hReady, hAw]
  exact List.cons_ne_nil _ _

theorem sendsW_ne_nil {s : State numCmds} {i : Input numCmds} (hReady : i.wReady = true) (hQueue : s.w ≠ []) :
    sendsW s i ≠ [] := by
  obtain ⟨beat, rest, hW⟩ := List.exists_cons_of_ne_nil hQueue
  rw [sendsW, wValid, hReady, hW]
  exact List.cons_ne_nil _ _

theorem exists_sent (h : Fair inputs) {t n : Nat} (hn : n < (acceptedWrites p inputs t).length) :
    ∃ u, n < (sentAw p inputs u).length ∧ n < (sentW p inputs u).length := by
  obtain ⟨u, hu⟩ : ∃ u, n < (sentAw p inputs u).length := by
    rw [← List.length_map (f := fun cmd => (hostDirectCmd cmd.words).hostAddr), acceptedWrites, map_window] at hn
    refine queue_served (fun u => (runAt p inputs u).aw) rfl
      (fun u => aw_step p (runAt p inputs u) (inputs u)) ?_ hn
    intro v
    obtain ⟨u, hvu, hReady⟩ := h.aw v
    exact ⟨u, hvu, sendsAw_ne_nil hReady⟩
  obtain ⟨v, hv⟩ : ∃ v, n < (sentW p inputs v).length := by
    rw [← List.length_map (f := fun cmd => wDescrOf (hostDirectCmd cmd.words)), acceptedWrites, map_window] at hn
    refine queue_served (fun u => (runAt p inputs u).w) rfl
      (fun u => w_step p (runAt p inputs u) (inputs u)) ?_ hn
    intro v
    obtain ⟨u, hvu, hReady⟩ := h.w v
    exact ⟨u, hvu, sendsW_ne_nil hReady⟩
  have hAw : sentAw p inputs u <+: sentAw p inputs (max u v) := window_mono _ (Nat.le_max_left u v)
  have hW : sentW p inputs v <+: sentW p inputs (max u v) := window_mono _ (Nat.le_max_right u v)
  exact ⟨max u v, Nat.lt_of_lt_of_le hu hAw.length_le, Nat.lt_of_lt_of_le hv hW.length_le⟩

/-- The address and the beat with a given number are those of the command with this number. -/
theorem sent_of_accepted {t u n : Nat} {cmd : PspinCmd numCmds}
    (hCmd : (acceptedWrites p inputs t)[n]? = some cmd) :
    (n < (sentAw p inputs u).length → (sentAw p inputs u)[n]? = some (hostDirectCmd cmd.words).hostAddr) ∧
      (n < (sentW p inputs u).length → (sentW p inputs u)[n]? = some (wDescrOf (hostDirectCmd cmd.words))) := by
  have hLater : (acceptedWrites p inputs (max t u))[n]? = some cmd := by
    obtain ⟨rest, hRest⟩ : acceptedWrites p inputs t <+: acceptedWrites p inputs (max t u) :=
      window_mono _ (Nat.le_max_left t u)
    rw [← hRest]
    exact (List.getElem?_append_left (List.getElem?_eq_some_iff.mp hCmd).1).trans hCmd
  constructor
  · intro hn
    obtain ⟨rest, hRest⟩ : sentAw p inputs u <+: sentAw p inputs (max t u) := window_mono _ (Nat.le_max_right t u)
    have hAll := congrArg (·[n]?) (sentAw_append p inputs (max t u))
    simp only [List.getElem?_map, hLater, Option.map_some] at hAll
    rw [← hRest, List.append_assoc, List.getElem?_append_left hn] at hAll
    exact hAll
  · intro hn
    obtain ⟨rest, hRest⟩ : sentW p inputs u <+: sentW p inputs (max t u) := window_mono _ (Nat.le_max_right t u)
    have hAll := congrArg (·[n]?) (sentW_append p inputs (max t u))
    simp only [List.getElem?_map, hLater, Option.map_some] at hAll
    rw [← hRest, List.append_assoc, List.getElem?_append_left hn] at hAll
    exact hAll

end Runs

end FPsPIN.HostDirect
