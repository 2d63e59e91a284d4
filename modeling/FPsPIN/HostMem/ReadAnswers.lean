import FPsPIN.HostMem.ReadStages

/-!
# Read bursts are answered in full

Every burst gets as many beats as it asks for, the last one marked, all OKAY or
all with the error code, whatever the stalls are. Only the id of an error beat
can be wrong: it is registered from the status lines in every cycle, so each
beat after the first shows what the lines hold one cycle earlier.
-/

namespace FPsPIN.HostMem.Rd

open Config Run

variable {p : Params}

/-- Bursts without a status, and beats that are owed. -/
inductive Stage : List Ar → List RBeat → State p → Prop
  | idle {s : State p} (h : Idle s) : Stage [] [] s
  | toDma {ar : Ar} {s : State p} (h : ToDma ar s) : Stage [ar] [] s
  | dmaBusy {ar : Ar} {s : State p} (h : DmaBusy ar s) : Stage [ar] [] s
  | toClient {ar : Ar} {s : State p} (h : ToClient ar s) : Stage [] (answer true ar) s
  | sending {id : AxiId} {n : Nat} {s : State p} (h : Sending id n s) : Stage [] (beats id true (n + 1)) s
  | failing {id : AxiId} {n : Nat} {s : State p} (h : Failing id n s) : Stage [] (beats id false (n + 1)) s

inductive Wait where
  | ar
  | desc
  | dmaStatus
  | client
  | data
  | error
deriving DecidableEq

def waitsFor (s : State p) : Wait :=
  match s.stateQ with
  | .idle => .ar
  | .issueToDma | .waitDma => .desc
  | .waitDmaFin => .dmaStatus
  | .issueToClient | .waitClient => .client
  | .waitClientFin => .data
  | .finishAxiError => .error

def gives (i : Input) : Wait → Bool
  | .ar => i.arvalid
  | .desc => i.descReady
  | .dmaStatus => i.dmaStatusValid
  | .client => i.clientTakes
  | .data => i.clientGives && i.rready
  | .error => i.rready

def rank (s : State p) : Nat :=
  match s.stateQ with
  | .idle => 0
  | .issueToDma | .waitDma => 4000
  | .waitDmaFin => 3000
  | .issueToClient | .waitClient => 2000
  | .waitClientFin => 1000 + s.client.length
  | .finishAxiError => 1000 + s.errorBeatsLeft.toNat

section Ranks

variable {s : State p} {ar : Ar} {id : AxiId} {n : Nat}

theorem Idle.rank_eq (h : Idle s) : rank s = 0 := by rw [rank, h.phase]

theorem ToDma.rank_eq (h : ToDma ar s) : waitsFor s = .desc ∧ rank s = 4000 := by
  rcases h.phase with hPhase | hPhase <;> simp [waitsFor, rank, hPhase]

theorem DmaBusy.rank_eq (h : DmaBusy ar s) : waitsFor s = .dmaStatus ∧ rank s = 3000 := by
  simp [waitsFor, rank, h.phase]

theorem ToClient.rank_eq (h : ToClient ar s) : waitsFor s = .client ∧ rank s = 2000 := by
  rcases h.phase with hPhase | hPhase <;> simp [waitsFor, rank, hPhase]

theorem length_clientBeats (id : AxiId) (n : Nat) : (clientBeats id n).length = n := by
  induction n with
  | zero => rfl
  | succ n ih => exact congrArg Nat.succ ih

theorem Sending.rank_eq (h : Sending id n s) : waitsFor s = .data ∧ rank s = 1001 + n := by
  simp only [waitsFor, rank, h.phase, h.client, length_clientBeats]
  exact ⟨trivial, by omega⟩

theorem Failing.rank_eq (h : Failing id n s) : waitsFor s = .error ∧ rank s = 1001 + n := by
  simp only [waitsFor, rank, h.phase, h.left]
  exact ⟨trivial, by omega⟩

end Ranks

section Cycle

variable (s : State p) (i : Input)

def arEvent : List Ar := if arTaken s i then [i.ar] else []

def beatEvent : List RBeat := if rTaken s i then [rbeat s] else []

def ownedEvent : List RBeat := if rTaken s i then [ownedBeat s] else []

def Closer : Prop := rank (step s i) < rank s ∨
  rank (step s i) = rank s ∧ waitsFor (step s i) = waitsFor s ∧ ¬ gives i (waitsFor s) = true

structure Moves (opened : List Ar) (owed : List RBeat) : Prop where
  next : ∃ closed opened' owed', Stage opened' owed' (step s i) ∧ closed.length = (statusTaken s i).toNat ∧
    opened ++ arEvent s i = closed ++ opened' ∧ owed ++ closed.flatMap (answer (okay i)) = ownedEvent s i ++ owed'
  closer : s.stateQ ≠ .idle → Closer s i

variable {s i} {opened : List Ar} {owed : List RBeat} {ar : Ar} {id : AxiId} {n : Nat}

theorem Moves.of_stage {opened' : List Ar} {owed' : List RBeat} (hStage : Stage opened' owed' (step s i))
    (hPhase : s.stateQ ≠ .waitDmaFin) (hAr : opened ++ arEvent s i = opened') (hOwed : owed = ownedEvent s i ++ owed')
    (hCloser : s.stateQ ≠ .idle → Closer s i) : Moves s i opened owed := by
  refine ⟨⟨[], opened', owed', hStage, ?_, hAr, ?_⟩, hCloser⟩
  · rw [statusTaken, beq_eq_false_iff_ne.mpr hPhase, Bool.false_and]
    rfl
  · rw [List.flatMap_nil, List.append_nil]
    exact hOwed

theorem arEvent_of_not_ready (h : s.arready = false) : arEvent s i = [] := by
  rw [arEvent, arTaken, h, Bool.false_and]
  rfl

theorem ownedEvent_of_empty (hPhase : s.stateQ ≠ .finishAxiError) (hClient : s.client = []) :
    ownedEvent s i = [] := by
  rw [ownedEvent, rTaken_of_empty hPhase hClient]
  rfl

theorem Idle.moves (h : Idle s) : Moves s i [] [] := by
  have hOwned : ownedEvent s i = [] := ownedEvent_of_empty (by rw [h.phase]; nofun) h.client
  cases hAr : i.arvalid with
  | false =>
    refine .of_stage (.idle (h.stay hAr)) (by rw [h.phase]; nofun) ?_ (by rw [hOwned]; rfl)
      fun hNot => absurd h.phase hNot
    rw [arEvent, arTaken, hAr, Bool.and_false]
    rfl
  | true =>
    refine .of_stage (.toDma (h.accept hAr)) (by rw [h.phase]; nofun) ?_ (by rw [hOwned]; rfl)
      fun hNot => absurd h.phase hNot
    rw [arEvent, arTaken, hAr, h.arready]
    rfl

theorem ToDma.moves (h : ToDma ar s) : Moves s i [ar] [] := by
  have hOther : s.stateQ ≠ .waitDmaFin ∧ s.stateQ ≠ .finishAxiError := by
    rcases h.phase with hPhase | hPhase <;> rw [hPhase] <;> decide
  have hOwned : ownedEvent s i = [] := ownedEvent_of_empty hOther.2 h.client
  have hAr := arEvent_of_not_ready (i := i) h.arready
  obtain ⟨hWait, hRank⟩ := h.rank_eq
  cases hReady : i.descReady with
  | false =>
    have hNext := h.stay hReady
    refine .of_stage (.toDma hNext) hOther.1 (by rw [hAr]; rfl) (by rw [hOwned]; rfl) fun _ => .inr ?_
    rw [hRank, hWait, hNext.rank_eq.1, hNext.rank_eq.2, gives, hReady]
    exact ⟨rfl, rfl, Bool.false_ne_true⟩
  | true =>
    have hNext := h.take hReady
    refine .of_stage (.dmaBusy hNext) hOther.1 (by rw [hAr]; rfl) (by rw [hOwned]; rfl) fun _ => .inl ?_
    rw [hRank, hNext.rank_eq.2]
    decide

theorem DmaBusy.moves (h : DmaBusy ar s) (hTag : statusTaken s i = true → i.dmaStatusTag = s.desc.tag) :
    Moves s i [ar] [] := by
  have hOwned : ownedEvent s i = [] := ownedEvent_of_empty (by rw [h.phase]; nofun) h.client
  have hAr := arEvent_of_not_ready (i := i) h.arready
  obtain ⟨hWait, hRank⟩ := h.rank_eq
  have hTaken : statusTaken s i = i.dmaStatusValid := by
    rw [statusTaken, h.phase]
    rfl
  cases hStatus : i.dmaStatusValid with
  | false =>
    have hNext := h.stay hStatus
    refine ⟨⟨[], [ar], [], .dmaBusy hNext, ?_, by rw [hAr]; rfl, by rw [hOwned]; rfl⟩, fun _ => .inr ?_⟩
    · rw [hTaken, hStatus]
      rfl
    · rw [hRank, hWait, hNext.rank_eq.1, hNext.rank_eq.2, gives, hStatus]
      exact ⟨rfl, rfl, Bool.false_ne_true⟩
  | true =>
    have hClosed : [ar].length = (statusTaken s i).toNat := by
      rw [hTaken, hStatus]
      rfl
    cases hOkay : okay i with
    | true =>
      have hNext := h.succeed hStatus hOkay (hTag (hTaken.trans hStatus))
      refine ⟨⟨[ar], [], answer true ar, .toClient hNext, hClosed, by rw [hAr], ?_⟩, fun _ => .inl ?_⟩
      · rw [hOwned, hOkay]
        simp
      · rw [hRank, hNext.rank_eq.2]
        decide
    | false =>
      have hNext := h.fail hStatus hOkay
      refine ⟨⟨[ar], [], answer false ar, .failing hNext, hClosed, by rw [hAr], ?_⟩, fun _ => .inl ?_⟩
      · rw [hOwned, hOkay]
        simp
      · have hLen := ar.len.isLt
        rw [hRank, hNext.rank_eq.2]
        omega

theorem ToClient.moves (h : ToClient ar s) : Moves s i [] (answer true ar) := by
  have hOther : s.stateQ ≠ .waitDmaFin ∧ s.stateQ ≠ .finishAxiError := by
    rcases h.phase with hPhase | hPhase <;> rw [hPhase] <;> decide
  have hOwned : ownedEvent s i = [] := ownedEvent_of_empty hOther.2 h.client
  have hAr := arEvent_of_not_ready (i := i) h.arready
  obtain ⟨hWait, hRank⟩ := h.rank_eq
  cases hTakes : i.clientTakes with
  | false =>
    have hNext := h.stay hTakes
    refine .of_stage (.toClient hNext) hOther.1 (by rw [hAr]; rfl) (by rw [hOwned]; rfl) fun _ => .inr ?_
    rw [hRank, hWait, hNext.rank_eq.1, hNext.rank_eq.2, gives, hTakes]
    exact ⟨rfl, rfl, Bool.false_ne_true⟩
  | true =>
    have hNext := h.take hTakes
    refine .of_stage (.sending hNext) hOther.1 (by rw [hAr]; rfl) (by rw [hOwned]; rfl) fun _ => .inl ?_
    have hLen := ar.len.isLt
    rw [hRank, hNext.rank_eq.2]
    omega

theorem Moves.of_giving {ok : Bool} (hPhase : s.stateQ ≠ .waitDmaFin) (hReady : s.arready = false)
    (hBeat : ownedBeat s = ⟨id, ok, n == 0⟩)
    (hStay : rTaken s i = false → Stage [] (beats id ok (n + 1)) (step s i))
    (hNext : rTaken s i = true → Stage [] (beats id ok n) (step s i)) (hCloser : Closer s i) :
    Moves s i [] (beats id ok (n + 1)) := by
  have hAr := arEvent_of_not_ready (i := i) hReady
  cases hTaken : rTaken s i with
  | false =>
    exact .of_stage (hStay hTaken) hPhase (by rw [hAr]; rfl) (by rw [ownedEvent, hTaken]; rfl) fun _ => hCloser
  | true =>
    have hOwned : ownedEvent s i = [⟨id, ok, n == 0⟩] := by rw [ownedEvent, hTaken, hBeat]; rfl
    exact .of_stage (hNext hTaken) hPhase (by rw [hAr]; rfl) (by rw [hOwned]; rfl) fun _ => hCloser

theorem Closer.of_giving {w : Wait} (h : waitsFor s = w ∧ rank s = 1001 + n) (hGives : rTaken s i = gives i w)
    (hStay : rTaken s i = false → waitsFor (step s i) = w ∧ rank (step s i) = 1001 + n)
    (hNext : rTaken s i = true → Idle (step s i) ∨ ∃ m, n = m + 1 ∧ rank (step s i) = 1001 + m) :
    Closer s i := by
  rw [Closer, h.1, h.2, ← hGives]
  cases hTaken : rTaken s i with
  | false => exact .inr ⟨(hStay hTaken).2, (hStay hTaken).1, Bool.false_ne_true⟩
  | true =>
    refine .inl ?_
    rcases hNext hTaken with hIdle | ⟨m, rfl, hRank⟩
    · rw [hIdle.rank_eq]
      omega
    · omega

theorem Sending.closer (h : Sending id n s) : Closer s i := by
  refine .of_giving h.rank_eq h.rTaken_eq (fun hTaken => (h.stay hTaken).rank_eq) (fun hTaken => ?_)
  cases n with
  | zero => exact .inl (h.done hTaken)
  | succ n => exact .inr ⟨n, rfl, (h.next hTaken).rank_eq.2⟩

theorem Sending.moves (h : Sending id n s) : Moves s i [] (beats id true (n + 1)) := by
  refine .of_giving (by rw [h.phase]; nofun) h.arready h.ownedBeat_eq (fun hTaken => .sending (h.stay hTaken))
    (fun hTaken => ?_) h.closer
  cases n with
  | zero => exact .idle (h.done hTaken)
  | succ n => exact .sending (h.next hTaken)

theorem Failing.closer (h : Failing id n s) : Closer s i := by
  refine .of_giving h.rank_eq h.rTaken_eq (fun hTaken => (h.stay hTaken).rank_eq) (fun hTaken => ?_)
  cases n with
  | zero => exact .inl (h.done hTaken)
  | succ n => exact .inr ⟨n, rfl, (h.next hTaken).rank_eq.2⟩

theorem Failing.moves (h : Failing id n s) : Moves s i [] (beats id false (n + 1)) := by
  refine .of_giving (by rw [h.phase]; nofun) h.arready h.ownedBeat_eq (fun hTaken => .failing (h.stay hTaken))
    (fun hTaken => ?_) h.closer
  cases n with
  | zero => exact .idle (h.done hTaken)
  | succ n => exact .failing (h.next hTaken)

theorem Stage.moves (h : Stage opened owed s) (hTag : statusTaken s i = true → i.dmaStatusTag = s.desc.tag) :
    Moves s i opened owed := by
  cases h with
  | idle h => exact h.moves
  | toDma h => exact h.moves
  | dmaBusy h => exact h.moves hTag
  | toClient h => exact h.moves
  | sending h => exact h.moves
  | failing h => exact h.moves

theorem Stage.idle_of_ready (h : Stage opened owed s) (hReady : s.arready = true) :
    Idle s ∧ opened = [] ∧ owed = [] := by
  have hNot : s.arready ≠ false := fun hEq => absurd (hEq.symm.trans hReady) Bool.false_ne_true
  cases h with
  | idle h => exact ⟨h, rfl, rfl⟩
  | toDma h => exact absurd h.arready hNot
  | dmaBusy h => exact absurd h.arready hNot
  | toClient h => exact absurd h.arready hNot
  | sending h => exact absurd h.arready hNot
  | failing h => exact absurd h.arready hNot

theorem Stage.idle_of_phase (h : Stage opened owed s) (hPhase : s.stateQ = .idle) : Idle s := by
  cases h with
  | idle h => exact h
  | toDma h => rcases h.phase with hEq | hEq <;> (rw [hEq] at hPhase; cases hPhase)
  | dmaBusy h => rw [h.phase] at hPhase; cases hPhase
  | toClient h => rcases h.phase with hEq | hEq <;> (rw [hEq] at hPhase; cases hPhase)
  | sending h => rw [h.phase] at hPhase; cases hPhase
  | failing h => rw [h.phase] at hPhase; cases hPhase

/-- On the error path the id comes from the status lines and the descriptor is kept. -/
theorem step_error (h : stateD s i = .finishAxiError) : (step s i).errorRvalid = true ∧
    (step s i).errorRid = i.dmaStatusTag.setWidth 8 ∧ (step s i).desc = s.desc := by
  rw [step, h]
  exact ⟨rfl, rfl, rfl⟩

theorem status_of_error (h : stateD s i = .finishAxiError) :
    statusTaken s i = true ∨ s.stateQ = .finishAxiError := by
  rw [stateD] at h
  cases hPhase : s.stateQ with
  | finishAxiError => exact .inr rfl
  | waitDmaFin =>
    cases hStatus : i.dmaStatusValid with
    | true => exact .inl (by rw [statusTaken, hPhase, hStatus]; rfl)
    | false => simp [hPhase, hStatus] at h
  | _ => simp [hPhase, apply_ite (· = Phase.finishAxiError)] at h

theorem ownedEvent_eq_iff : ownedEvent s i = beatEvent s i ↔
    (s.stateQ = .finishAxiError → rTaken s i = true → s.errorRid = s.desc.tag.setWidth 8) := by
  rw [ownedEvent, beatEvent]
  cases rTaken s i with
  | false => simp
  | true =>
    by_cases hPhase : s.stateQ = .finishAxiError
    · simp [ownedBeat, rbeat, hPhase, eq_comm]
    · simp [ownedBeat, hPhase]

end Cycle

section Runs

variable (p) (inputs : Nat → Input)

def runAt (t : Nat) : State p := stateAt step (init p) inputs t

def arsOn (t : Nat) : List Ar := window (fun u => arEvent (runAt p inputs u) (inputs u)) 0 t

def beatsOn (t : Nat) : List RBeat := window (fun u => beatEvent (runAt p inputs u) (inputs u)) 0 t

def ownedOn (t : Nat) : List RBeat := window (fun u => ownedEvent (runAt p inputs u) (inputs u)) 0 t

def outcomesOn (t : Nat) : List Bool :=
  window (fun u => if statusTaken (runAt p inputs u) (inputs u) then [okay (inputs u)] else []) 0 t

def answersOn (t : Nat) : List RBeat :=
  (List.zip (arsOn p inputs t) (outcomesOn p inputs t)).flatMap fun burst => answer burst.2 burst.1

/-- The DMA engine reports a descriptor with its tag. -/
def TagsStatus : Prop :=
  ∀ t, statusTaken (runAt p inputs t) (inputs t) = true → (inputs t).dmaStatusTag = (runAt p inputs t).desc.tag

def Fair : Prop := ∀ (w : Wait) (t : Nat), ∃ u, t ≤ u ∧ gives (inputs u) w = true

/-- While a failed burst is answered, the status lines show its tag in each cycle before one with a beat. -/
def TagHeld : Prop :=
  ∀ u t, u < t → statusTaken (runAt p inputs u) (inputs u) = true →
    (∀ v, u < v → v ≤ t + 1 → (runAt p inputs v).stateQ = .finishAxiError) →
    (inputs (t + 1)).rready = true →
      (inputs t).dmaStatusTag.setWidth 8 = (inputs u).dmaStatusTag.setWidth 8

structure Reads : Prop where
  /-- The beats are those of the bursts, in order. -/
  right : ∀ t, beatsOn p inputs t <+: answersOn p inputs t
  /-- The next burst is taken when all are given. -/
  complete : ∀ t, arTaken (runAt p inputs t) (inputs t) = true →
    (outcomesOn p inputs t).length = (arsOn p inputs t).length ∧ beatsOn p inputs t = answersOn p inputs t
  given : Fair inputs → ∀ k, ∃ t, (arsOn p inputs t).length = k ∧ arTaken (runAt p inputs t) (inputs t) = true

variable {p inputs}

theorem run_stage (hTags : TagsStatus p inputs) (t : Nat) :
    ∃ closed opened owed, Stage opened owed (runAt p inputs t) ∧ arsOn p inputs t = closed ++ opened ∧
      closed.length = (outcomesOn p inputs t).length ∧
      (List.zip closed (outcomesOn p inputs t)).flatMap (fun burst => answer burst.2 burst.1) =
        ownedOn p inputs t ++ owed := by
  induction t with
  | zero => exact ⟨[], [], [], .idle ⟨rfl, rfl, rfl, rfl, rfl, rfl⟩, rfl, rfl, rfl⟩
  | succ t ih =>
    obtain ⟨closed, opened, owed, hStage, hArs, hLength, hOwned⟩ := ih
    obtain ⟨now, opened', owed', hNext, hNow, hOpened, hOwed⟩ := (hStage.moves (hTags t)).next
    have hOutcomes : outcomesOn p inputs (t + 1) = outcomesOn p inputs t ++ now.map fun _ => okay (inputs t) := by
      rw [outcomesOn, window_succ _ (Nat.zero_le t), ← outcomesOn]
      cases hStatus : statusTaken (runAt p inputs t) (inputs t) with
      | false =>
        rw [hStatus] at hNow
        rw [List.length_eq_zero_iff.mp hNow]
        rfl
      | true =>
        rw [hStatus] at hNow
        obtain ⟨ar, rfl⟩ := List.length_eq_one_iff.mp hNow
        rfl
    have hOwnedNext : ownedOn p inputs (t + 1) = ownedOn p inputs t ++ ownedEvent (runAt p inputs t) (inputs t) :=
      window_succ _ (Nat.zero_le t)
    refine ⟨closed ++ now, opened', owed', hNext, ?_, ?_, ?_⟩
    · rw [arsOn, window_succ _ (Nat.zero_le t), ← arsOn, hArs, List.append_assoc, hOpened, List.append_assoc]
    · rw [hOutcomes, List.length_append, List.length_append, hLength, List.length_map]
    · rw [hOutcomes, List.zip_append hLength, List.flatMap_append, hOwned, hOwnedNext, List.append_assoc,
        List.append_assoc, ← hOwed, ← List.map_prod_left_eq_zip, List.flatMap_map]

theorem answersOn_eq {t : Nat} {closed opened : List Ar} (hArs : arsOn p inputs t = closed ++ opened)
    (hLength : closed.length = (outcomesOn p inputs t).length) : answersOn p inputs t =
      (List.zip closed (outcomesOn p inputs t)).flatMap fun burst => answer burst.2 burst.1 := by
  have hZip : List.zip (closed ++ opened) (outcomesOn p inputs t ++ []) = List.zip closed (outcomesOn p inputs t) := by
    rw [List.zip_append hLength, List.zip_nil_right, List.append_nil]
  rw [answersOn, hArs, ← hZip, List.append_nil]

theorem exists_idle (hTags : TagsStatus p inputs) (hFair : Fair inputs) (t : Nat) :
    ∃ u, t ≤ u ∧ (runAt p inputs u).stateQ = .idle := by
  by_cases hIdle : (runAt p inputs t).stateQ = .idle
  · exact ⟨t, Nat.le_refl t, hIdle⟩
  refine reached_of_fair (fun u => (runAt p inputs u).stateQ ≠ .idle) (fun u => rank (runAt p inputs u))
    (fun u => waitsFor (runAt p inputs u)) (fun u hu => ?_) (fun w u _ => hFair w u) hIdle
  obtain ⟨_, _, _, hStage, _⟩ := run_stage hTags u
  by_cases hNext : (runAt p inputs (u + 1)).stateQ = .idle
  · exact .inl hNext
  · exact .inr ⟨hNext, (hStage.moves (hTags u)).closer hu⟩

theorem exists_arTaken (hTags : TagsStatus p inputs) (hFair : Fair inputs) (t : Nat) :
    ∃ u, t ≤ u ∧ arTaken (runAt p inputs u) (inputs u) = true := by
  obtain ⟨u, htu, hIdle⟩ := exists_idle hTags hFair t
  have hRest : ∀ v, (runAt p inputs v).stateQ = .idle → Idle (runAt p inputs v) := by
    intro v hv
    obtain ⟨_, _, _, hStage, _⟩ := run_stage hTags v
    exact hStage.idle_of_phase hv
  have hStay : ∀ v, (runAt p inputs v).stateQ = .idle → ¬ gives (inputs v) .ar = true →
      (runAt p inputs (v + 1)).stateQ = .idle := by
    intro v hv hNot
    exact ((hRest v hv).stay (Bool.eq_false_iff.mpr hNot)).phase
  obtain ⟨v, huv, hv, hValid⟩ := exists_leaving hStay hIdle (hFair .ar u)
  refine ⟨v, Nat.le_trans htu huv, ?_⟩
  rw [arTaken, (hRest v hv).arready]
  exact hValid

theorem exists_burst (hTags : TagsStatus p inputs) (hFair : Fair inputs) (k : Nat) :
    ∃ t, (arsOn p inputs t).length = k ∧ arTaken (runAt p inputs t) (inputs t) = true := by
  have hLength : ∀ u, (arsOn p inputs (u + 1)).length =
      (arsOn p inputs u).length + (arTaken (runAt p inputs u) (inputs u)).toNat := by
    intro u
    rw [arsOn, window_succ _ (Nat.zero_le u), List.length_append, ← arsOn, arEvent]
    cases arTaken (runAt p inputs u) (inputs u) <;> rfl
  have hStay : ∀ u, (arsOn p inputs u).length = k → ¬ arTaken (runAt p inputs u) (inputs u) = true →
      (arsOn p inputs (u + 1)).length = k := by
    intro u hu hNot
    rw [hLength, hu, Bool.eq_false_iff.mpr hNot]
    rfl
  have hReached : ∃ t, (arsOn p inputs t).length = k := by
    clear hStay
    cases k with
    | zero => exact ⟨0, rfl⟩
    | succ k =>
      obtain ⟨t, ht, hTaken⟩ := exists_burst hTags hFair k
      refine ⟨t + 1, ?_⟩
      rw [hLength, ht, hTaken]
      rfl
  obtain ⟨t, ht⟩ := hReached
  obtain ⟨u, _, hu⟩ := exists_leaving hStay ht (exists_arTaken hTags hFair t)
  exact ⟨u, hu⟩

theorem length_beatsOn (t : Nat) : (beatsOn p inputs t).length = (ownedOn p inputs t).length := by
  induction t with
  | zero => rfl
  | succ t ih =>
    rw [beatsOn, ownedOn, window_succ _ (Nat.zero_le t), window_succ _ (Nat.zero_le t), List.length_append,
      List.length_append, ← beatsOn, ← ownedOn, ih, beatEvent, ownedEvent]
    cases rTaken (runAt p inputs t) (inputs t) <;> rfl

def Owned (p : Params) (inputs : Nat → Input) : Prop :=
  ∀ t, ownedEvent (runAt p inputs t) (inputs t) = beatEvent (runAt p inputs t) (inputs t)

theorem owned_of_right (hTags : TagsStatus p inputs) (h : ∀ t, beatsOn p inputs t <+: answersOn p inputs t) :
    Owned p inputs := by
  have hEq : ∀ t, beatsOn p inputs t = ownedOn p inputs t := by
    intro t
    obtain ⟨closed, opened, owed, _, hArs, hLength, hOwned⟩ := run_stage hTags t
    have hPrefix : ownedOn p inputs t <+: answersOn p inputs t := by
      rw [answersOn_eq hArs hLength, hOwned]
      exact List.prefix_append _ _
    exact (List.prefix_of_prefix_length_le (h t) hPrefix (length_beatsOn t).le).eq_of_length (length_beatsOn t)
  intro t
  have hNext := hEq (t + 1)
  rw [beatsOn, ownedOn, window_succ _ (Nat.zero_le t), window_succ _ (Nat.zero_le t), ← beatsOn, ← ownedOn,
    hEq t] at hNext
  exact (List.append_cancel_left hNext).symm

theorem reads_of_owned (hTags : TagsStatus p inputs) (h : Owned p inputs) : Reads p inputs := by
  have hEq : ∀ t, beatsOn p inputs t = ownedOn p inputs t := fun t =>
    window_congr fun u _ _ => (h u).symm
  refine ⟨fun t => ?_, fun t hAr => ?_, exists_burst hTags⟩
  · obtain ⟨closed, opened, owed, _, hArs, hLength, hOwned⟩ := run_stage hTags t
    rw [answersOn_eq hArs hLength, hOwned, hEq t]
    exact List.prefix_append _ _
  · obtain ⟨closed, opened, owed, hStage, hArs, hLength, hOwned⟩ := run_stage hTags t
    obtain ⟨_, rfl, rfl⟩ := hStage.idle_of_ready (Bool.and_eq_true_iff.mp hAr).1
    refine ⟨?_, ?_⟩
    · rw [hArs, List.append_nil, hLength]
    · rw [answersOn_eq hArs hLength, hOwned, hEq t, List.append_nil]

section Failing

variable {u t : Nat}

theorem stateD_of_phase (h : (runAt p inputs (t + 1)).stateQ = .finishAxiError) :
    stateD (runAt p inputs t) (inputs t) = .finishAxiError := stateQ_step.symm.trans h

theorem desc_of_failing (hut : u ≤ t)
    (hPhase : ∀ v, u < v → v ≤ t → (runAt p inputs v).stateQ = .finishAxiError) :
    (runAt p inputs t).desc = (runAt p inputs u).desc := by
  induction t, hut using Nat.le_induction with
  | base => rfl
  | succ t hut ih =>
    have hD := stateD_of_phase (hPhase (t + 1) (Nat.lt_succ_of_le hut) (Nat.le_refl _))
    exact (step_error hD).2.2.trans (ih fun v huv hvt => hPhase v huv (Nat.le_succ_of_le hvt))

/-- The id of an error beat is what the status lines showed one cycle before. -/
theorem errorRid_eq (h : (runAt p inputs (t + 1)).stateQ = .finishAxiError) :
    (runAt p inputs (t + 1)).errorRid = (inputs t).dmaStatusTag.setWidth 8 := (step_error (stateD_of_phase h)).2.1

theorem exists_status (h : (runAt p inputs t).stateQ = .finishAxiError) :
    ∃ u < t, statusTaken (runAt p inputs u) (inputs u) = true ∧
      ∀ v, u < v → v ≤ t → (runAt p inputs v).stateQ = .finishAxiError := by
  have hStep : ∀ v, (runAt p inputs (v + 1)).stateQ = .finishAxiError →
      statusTaken (runAt p inputs v) (inputs v) = true ∨ (runAt p inputs v).stateQ = .finishAxiError ∧
        ¬ (runAt p inputs v).stateQ ≠ .finishAxiError := by
    intro v hv
    exact (status_of_error (stateD_of_phase hv)).imp_right fun hPhase => ⟨hPhase, fun hNot => hNot hPhase⟩
  have hStart : (runAt p inputs 0).stateQ ≠ .finishAxiError := nofun
  obtain ⟨u, hut, hStatus, hSince⟩ :=
    exists_entering (fun v => (runAt p inputs v).stateQ = .finishAxiError) hStart hStep h
  refine ⟨u, hut, hStatus, fun v huv hvt => ?_⟩
  rcases Nat.lt_or_eq_of_le hvt with hLt | rfl
  · exact not_not.mp (hSince v huv hLt)
  · exact h

end Failing

theorem tagHeld_of_owned (hTags : TagsStatus p inputs) (hOwned : Owned p inputs) : TagHeld p inputs := by
  intro u t hut hStatus hPhase hReady
  have hNow := hPhase (t + 1) (Nat.lt_succ_of_lt hut) (Nat.le_refl _)
  have hTaken : rTaken (runAt p inputs (t + 1)) (inputs (t + 1)) = true := by
    have hValid : (runAt p inputs (t + 1)).errorRvalid = true := (step_error (stateD_of_phase hNow)).1
    rw [rTaken, rvalid, hNow, hValid, hReady]
    rfl
  rw [← errorRid_eq hNow, ownedEvent_eq_iff.mp (hOwned (t + 1)) hNow hTaken,
    desc_of_failing (Nat.le_succ_of_le hut.le) hPhase, hTags u hStatus]

theorem owned_of_tagHeld (hTags : TagsStatus p inputs) (hHeld : TagHeld p inputs) : Owned p inputs := by
  intro t
  refine ownedEvent_eq_iff.mpr fun hPhase hTaken => ?_
  obtain ⟨u, hut, hStatus, hSince⟩ := exists_status hPhase
  obtain ⟨t, rfl⟩ := Nat.exists_eq_succ_of_ne_zero (Nat.ne_zero_of_lt hut)
  have hLines : (inputs t).dmaStatusTag.setWidth 8 = (inputs u).dmaStatusTag.setWidth 8 := by
    rcases Nat.lt_or_eq_of_le (Nat.le_of_lt_succ hut) with hLt | rfl
    · exact hHeld u t hLt hStatus hSince (Bool.and_eq_true_iff.mp hTaken).2
    · rfl
  rw [errorRid_eq hPhase, hLines, desc_of_failing hut.le hSince, hTags u hStatus]

/-- Every burst is answered in full and with its own id, exactly if the status lines hold the tag. -/
theorem reads_iff (hTags : TagsStatus p inputs) : Reads p inputs ↔ TagHeld p inputs := by
  constructor
  · intro h
    exact tagHeld_of_owned hTags (owned_of_right hTags h.right)
  · intro hHeld
    exact reads_of_owned hTags (owned_of_tagHeld hTags hHeld)

end Runs

section FailedRead

/-- A read of two beats, which fails in cycle 2. -/
def failedRead (held : Bool) (t : Nat) : Input :=
  ⟨t == 0, ⟨0x11, 0x1000, 1⟩, true, true, t == 2, if held || t == 2 then 0x11 else 0, 1, true, true, 0⟩

theorem failedRead_tagsStatus (held : Bool) : TagsStatus ramOf64K (failedRead held) := by
  intro t hStatus
  have ht : t = 2 := by simpa [failedRead] using (Bool.and_eq_true_iff.mp hStatus).2
  subst ht
  cases held <;> decide +kernel

theorem reads_iff_failedRead :
    (Reads ramOf64K (failedRead true) ↔ TagHeld ramOf64K (failedRead true)) ∧
      beatsOn ramOf64K (failedRead true) 6 = [⟨0x11, false, false⟩, ⟨0x11, false, true⟩] :=
  ⟨reads_iff (failedRead_tagsStatus true), by decide +kernel⟩

/-- The second beat has id 0. -/
theorem reads_fail : ¬ ∀ (p : Params) (inputs : Nat → Input), TagsStatus p inputs → Reads p inputs := by
  intro hAll
  have hWrong : ¬ beatsOn ramOf64K (failedRead false) 6 <+: answersOn ramOf64K (failedRead false) 6 := by
    decide +kernel
  exact hWrong ((hAll ramOf64K (failedRead false) (failedRead_tagsStatus false)).right 6)

end FailedRead

end FPsPIN.HostMem.Rd
