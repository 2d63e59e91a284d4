import FPsPIN.Driver.AccessWindows

/-!
# What a read returns and what it loses

A read of the memory returns consecutive words, never more than was asked for.
A read of the FIFO takes the words that come before the first pause, up to a
block of them and whatever the count is, and it takes them before it knows
whether it can hand them over: a signal, the removal of the device or a failed
copy drops those that are in the block buffer. The next read starts with an
empty one, so they do not come back.
-/

namespace FPsPIN.Driver

open FPsPIN.Bytes FPsPIN.Trace

/-- The outcome is within the count, and a read of the memory returns the words from the position on
and moves it behind them. -/
structure Respects (mem : Nat → BitVec 32) (f : File) (count : BitVec 64) (o : ReadOutcome) : Prop where
  retval : ∀ n, o.retval = .ok n → n ≤ count.toNat
  copied : o.copied.length ≤ count.toNat
  memory : f.type = .tyMem → ∀ n, o.retval = .ok n →
    ∃ words, n = 4 * words ∧ o.copied = wordBytes ((blockOffsets f.fPos.toNat words).map mem) ∧
      o.file = { f with fPos := f.fPos + BitVec.ofNat 64 n }

/-- All words taken so far have been delivered, in their order. -/
def Complete (s : Session) : Prop := s.delivered = wordBytes s.taken

/-- They have or some later calls deliver the rest. -/
def Recoverable (s : Session) : Prop := ∃ calls s', run Session.step s calls = some s' ∧ Complete s'

def Keeps (s : Session) (a : Nat × FileCall) : Prop :=
  (∀ c mem count, a.2 = .read c mem count → c.refused = false →
    ∀ o, pspinRead c mem (s.files a.1) count = some o → Respects mem (s.files a.1) count o) ∧
  ∀ s', s.step a = some s' → Recoverable s'

def blockWords : Nat := pspinBlockSize.toNat / 4

def wordRun : List FifoTurn → List (BitVec 32)
  | .word reg :: turns => reg :: wordRun turns
  | _ => []

namespace ReadCall

variable (c : ReadCall)

/-- The turns without the time-outs before the first word. -/
def served : List FifoTurn := c.turns.dropWhile (fun turn => decide (turn = .timeout))

/-- The words before the first pause, at most a block of them. -/
def block : List (BitVec 32) := (wordRun c.served).take blockWords

/-- A removal of the device or a signal comes before the block is full. -/
def Disturbed : Prop :=
  c.block.length < blockWords ∧
    (c.served[c.block.length]? = some .exiting ∨ c.served[c.block.length]? = some .interrupted)

end ReadCall

/-- The words before the first pause fit the count, they can be copied, and neither a signal nor the removal of the
device comes after one of them. -/
structure LoopSafe (c : ReadCall) (count : BitVec 64) : Prop where
  count : 4 * c.block.length ≤ count.toNat
  userBytes : 4 * c.block.length ≤ c.userBytes
  undisturbed : c.block ≠ [] → ¬ c.Disturbed

def ReadSafe (f : File) : FileCall → Prop
  | .read c _ count => c.refused = false ∧ DrainsFifo c f → LoopSafe c count
  | _ => True

section Words

theorem length_wordBytes (words : List (BitVec 32)) : (wordBytes words).length = 4 * words.length := by
  induction words with
  | nil => rfl
  | cons w words ih =>
    have hCons : wordBytes (w :: words) = bytesLE 4 w ++ wordBytes words := List.flatMap_cons ..
    rw [hCons, List.length_append, length_bytesLE, ih, List.length_cons]
    omega

theorem wordBytes_append (xs ys : List (BitVec 32)) : wordBytes (xs ++ ys) = wordBytes xs ++ wordBytes ys :=
  List.flatMap_append

theorem nil_eq_wordBytes {words : List (BitVec 32)} : [] = wordBytes words ↔ words = [] := by
  constructor
  · intro h
    have hLength := congrArg List.length h
    rw [length_wordBytes, List.length_nil] at hLength
    exact List.eq_nil_of_length_eq_zero (by omega)
  · rintro rfl
    rfl

theorem gathered_ne_nil {blockBuffer words : List (BitVec 32)} {turns : List FifoTurn}
    (h : fifoLoop blockBuffer turns = some (.gathered words)) : words ≠ [] := by
  have hFull : ∀ {buffer : List (BitVec 32)}, pspinBlockSize.toNat ≤ 4 * buffer.length → buffer ≠ [] := by
    rintro buffer hLength rfl
    exact absurd hLength (by decide)
  induction turns generalizing blockBuffer with
  | nil =>
    rw [fifoLoop] at h
    split at h
    · rename_i hLength
      cases h
      exact hFull hLength
    · cases h
  | cons turn turns ih =>
    unfold fifoLoop at h
    split at h
    · rename_i hLength
      cases h
      exact hFull hLength
    · cases turn with
      | exiting => cases h
      | interrupted => cases h
      | timeout =>
        change (if blockBuffer = [] then _ else _) = _ at h
        split at h
        · exact ih h
        · rename_i hSome
          cases h
          exact hSome
      | word reg => exact ih h

theorem fifoLoop_dropWhile (turns : List FifoTurn) :
    fifoLoop [] turns = fifoLoop [] (turns.dropWhile fun turn => decide (turn = .timeout)) := by
  induction turns with
  | nil => rfl
  | cons turn turns ih =>
    cases turn with
    | timeout => exact ih
    | exiting | interrupted | word => rfl

theorem blockSize_le_iff {words : Nat} : pspinBlockSize.toNat ≤ 4 * words ↔ blockWords ≤ words := by
  change 4 * blockWords ≤ _ ↔ _
  omega

def FifoTurn.ends (blockBuffer : List (BitVec 32)) : FifoTurn → FifoEnd
  | .exiting => .stopped (.common .eintr) blockBuffer
  | .interrupted => .stopped .erestartsys blockBuffer
  | .timeout | .word _ => .gathered blockBuffer

/-- The loop takes the words in a row until the block is full, and the turn after them ends it. -/
theorem fifoLoop_eq {blockBuffer : List (BitVec 32)} {turns : List FifoTurn} (hRoom : blockBuffer.length ≤ blockWords)
    (hHead : blockBuffer = [] → turns.head? ≠ some .timeout) :
    fifoLoop blockBuffer turns =
      if blockBuffer.length + ((wordRun turns).take (blockWords - blockBuffer.length)).length = blockWords then
        some (.gathered (blockBuffer ++ (wordRun turns).take (blockWords - blockBuffer.length)))
      else turns[((wordRun turns).take (blockWords - blockBuffer.length)).length]?.map
        (FifoTurn.ends (blockBuffer ++ (wordRun turns).take (blockWords - blockBuffer.length))) := by
  induction turns generalizing blockBuffer with
  | nil =>
    have hFull : blockWords ≤ blockBuffer.length ↔ blockBuffer.length = blockWords := by omega
    simp [fifoLoop, blockSize_le_iff, hFull, wordRun]
  | cons turn turns ih =>
    unfold fifoLoop
    by_cases hNow : blockBuffer.length = blockWords
    · rw [if_pos (blockSize_le_iff.mpr (Nat.le_of_eq hNow.symm))]
      simp [hNow]
    · rw [if_neg (fun hFull => hNow (Nat.le_antisymm hRoom (blockSize_le_iff.mp hFull)))]
      cases turn with
      | exiting | interrupted => simp [wordRun, hNow, FifoTurn.ends]
      | timeout =>
        have hSome : blockBuffer ≠ [] := fun hNil => hHead hNil rfl
        simp [wordRun, hNow, hSome, FifoTurn.ends]
      | word reg =>
        have hTake : (wordRun (.word reg :: turns)).take (blockWords - blockBuffer.length) =
            reg :: (wordRun turns).take (blockWords - (blockBuffer ++ [reg]).length) := by
          have hSucc : blockWords - blockBuffer.length = blockWords - (blockBuffer ++ [reg]).length + 1 := by
            rw [List.length_append, List.length_singleton]
            omega
          rw [hSucc]
          rfl
        have hLength : (blockBuffer ++ [reg]).length = blockBuffer.length + 1 := List.length_append
        refine (ih (by omega) (fun hNil => absurd hNil (by simp))).trans ?_
        rw [hTake, List.length_cons, hLength, List.append_assoc, List.singleton_append, List.getElem?_cons_succ]
        simp only [Nat.add_assoc, Nat.add_comm 1]

section Block

variable {c : ReadCall} {blockBuffer : List (BitVec 32)}

/-- What a read takes and how it ends, by the turns of the call. -/
theorem fifoLoop_turns (c : ReadCall) :
    fifoLoop [] c.turns =
      if c.block.length = blockWords then some (.gathered c.block)
      else c.served[c.block.length]?.map (FifoTurn.ends c.block) := by
  have hHead : c.served.head? ≠ some .timeout := by
    intro hTimeout
    have hNot := List.head?_dropWhile_not (fun turn => decide (turn = FifoTurn.timeout)) c.turns
    rw [← ReadCall.served, hTimeout] at hNot
    simp at hNot
  have hRoom : ([] : List (BitVec 32)).length ≤ blockWords := Nat.zero_le blockWords
  have hLoop := fifoLoop_eq hRoom (fun _ => hHead)
  simpa [ReadCall.block, ReadCall.served, ← fifoLoop_dropWhile] using hLoop

theorem stopped_of_loop {e : CallErrno} (h : fifoLoop [] c.turns = some (.stopped e blockBuffer)) :
    blockBuffer = c.block ∧ c.Disturbed := by
  rw [fifoLoop_turns] at h
  split at h
  · cases h
  · next hOpen =>
    have hRoom : c.block.length < blockWords := Nat.lt_of_le_of_ne (List.length_take_le _ _) hOpen
    obtain ⟨turn, hTurn, hEnd⟩ := Option.map_eq_some_iff.mp h
    cases turn with
    | exiting =>
      cases hEnd
      exact ⟨rfl, hRoom, Or.inl hTurn⟩
    | interrupted =>
      cases hEnd
      exact ⟨rfl, hRoom, Or.inr hTurn⟩
    | timeout | word => cases hEnd

theorem gathered_of_loop (h : fifoLoop [] c.turns = some (.gathered blockBuffer)) :
    blockBuffer = c.block ∧ ¬ c.Disturbed := by
  rw [fifoLoop_turns] at h
  split at h
  · next hFull =>
    cases h
    exact ⟨rfl, fun hDisturbed => Nat.ne_of_lt hDisturbed.1 hFull⟩
  · obtain ⟨turn, hTurn, hEnd⟩ := Option.map_eq_some_iff.mp h
    rw [ReadCall.Disturbed, hTurn]
    cases turn with
    | exiting | interrupted => cases hEnd
    | timeout | word =>
      cases hEnd
      exact ⟨rfl, by simp⟩

/-- A count of a whole block is always enough. -/
theorem loopSafe_of_block {count : BitVec 64} (hCount : pspinBlockSize.toNat ≤ count.toNat)
    (hCopied : 4 * c.block.length ≤ c.userBytes) (hUndisturbed : c.block ≠ [] → ¬ c.Disturbed) :
    LoopSafe c count where
  count := by
    have hLength : c.block.length ≤ blockWords := List.length_take_le _ _
    have hSize : pspinBlockSize.toNat = 4 * blockWords := rfl
    omega
  userBytes := hCopied
  undisturbed := hUndisturbed

end Block

theorem writeCount_le {fPos : BitVec 64} (hPos : fPos < pspinMemSize) (count : BitVec 64) :
    (writeCount fPos count).toNat ≤ count.toNat := by
  have hLt : fPos.toNat < 0x800000 := hPos
  have hRest : (pspinMemSize - fPos).toNat = 0x800000 - fPos.toNat := BitVec.toNat_sub_of_le (Nat.le_of_lt hLt)
  have hFirst : (if fPos + count > pspinMemSize then pspinMemSize - fPos else count).toNat ≤ count.toNat := by
    split
    · rename_i hOver
      have hSum : 0x800000 < (fPos + count).toNat := hOver
      rw [BitVec.toNat_add] at hSum
      omega
    · exact Nat.le_refl _
  rw [writeCount, BitVec.toNat_ofNat, toNat_clamp]
  refine Nat.le_trans (Nat.mod_le _ _) (Nat.le_trans (Nat.div_mul_le_self _ _) ?_)
  exact Nat.le_trans (Nat.min_le_left _ _) hFirst

end Words

section Outcomes

variable {c : ReadCall} {mem : Nat → BitVec 32} {f : File} {count : BitVec 64} {o : ReadOutcome}

theorem length_blockOffsets (pos words : Nat) : (blockOffsets pos words).length = words := by
  rw [blockOffsets, List.length_map, List.length_range]

theorem delivered_of_tyMem (h : o.file.type = .tyMem) : o.delivered = [] := by
  rw [ReadOutcome.delivered, h]

theorem delivered_of_error {e : CallErrno} (h : o.retval = .error e) : o.delivered = [] := by
  rw [ReadOutcome.delivered, h]
  cases o.file.type <;> rfl

theorem delivered_of_ok {n : Nat} (hType : o.file.type = .tyFifo) (h : o.retval = .ok n) :
    o.delivered = o.copied := by
  rw [ReadOutcome.delivered, hType, h]

theorem copyToUser_type (blockBuffer : List (BitVec 32)) (reads : List Nat) (taken : List (BitVec 32)) :
    (copyToUser c f blockBuffer reads taken).file.type = f.type := by
  rw [copyToUser]
  split
  · cases hType : f.type <;> simp only [hType]
  · rfl

theorem copyToUser_taken (blockBuffer : List (BitVec 32)) (reads : List Nat) (taken : List (BitVec 32)) :
    (copyToUser c f blockBuffer reads taken).taken = taken := by
  rw [copyToUser]
  split <;> rfl

section Copies

variable {blockBuffer : List (BitVec 32)} {reads : List Nat} {taken : List (BitVec 32)}

theorem copyToUser_of_le (h : 4 * blockBuffer.length ≤ c.userBytes) :
    (copyToUser c f blockBuffer reads taken).retval = .ok (4 * blockBuffer.length) ∧
      (copyToUser c f blockBuffer reads taken).copied = wordBytes blockBuffer := by
  rw [copyToUser, length_wordBytes, if_pos h]
  exact ⟨rfl, rfl⟩

theorem copyToUser_of_lt (h : c.userBytes < 4 * blockBuffer.length) :
    (copyToUser c f blockBuffer reads taken).retval = .error (.common .efault) := by
  rw [copyToUser, length_wordBytes, if_neg (Nat.not_le.mpr h)]

end Copies

theorem respects_memory (h : ReadsMemory c f) :
    Respects mem f count
      (copyToUser c f ((blockOffsets f.fPos.toNat ((writeCount f.fPos count).toNat / 4)).map mem)
        (blockOffsets f.fPos.toNat ((writeCount f.fPos count).toNat / 4)) []) := by
  obtain ⟨hWords, -⟩ := toNat_writeCount_div f.fPos count
  have hCount := writeCount_le h.fPos count
  have hLength : (wordBytes ((blockOffsets f.fPos.toNat ((writeCount f.fPos count).toNat / 4)).map mem)).length =
      (writeCount f.fPos count).toNat := by
    rw [length_wordBytes, List.length_map, length_blockOffsets, hWords]
  rw [copyToUser, hLength]
  split
  · constructor
    · rintro n ⟨rfl⟩
      exact hCount
    · change (wordBytes _).length ≤ _
      rw [hLength]
      exact hCount
    · rintro hType n ⟨rfl⟩
      refine ⟨_, hWords.symm, rfl, ?_⟩
      simp only [hType]
  · constructor
    · rintro n ⟨⟩
    · change (List.take _ _).length ≤ _
      rw [List.length_take, hLength]
      omega
    · rintro - n ⟨⟩

theorem respects_empty {retval : Except CallErrno Nat} {taken : List (BitVec 32)}
    (h : ∀ n, retval = .ok n → n = 0) : Respects mem f count ⟨retval, f, [], [], taken⟩ := by
  refine ⟨?_, Nat.zero_le _, ?_⟩
  · intro n hOk
    rw [h n hOk]
    exact Nat.zero_le _
  · intro _ n hOk
    refine ⟨0, h n hOk, rfl, ?_⟩
    rw [h n hOk]
    change f = { f with fPos := f.fPos + 0#64 }
    rw [BitVec.add_zero]

theorem respects_gathered (hType : f.type = .tyFifo) {blockBuffer : List (BitVec 32)} (hSome : blockBuffer ≠ []) :
    Respects mem f count (copyToUser c f blockBuffer [] blockBuffer) ∧
        (copyToUser c f blockBuffer [] blockBuffer).delivered = wordBytes blockBuffer ↔
      4 * blockBuffer.length ≤ count.toNat ∧ 4 * blockBuffer.length ≤ c.userBytes := by
  have hFile : (copyToUser c f blockBuffer [] blockBuffer).file.type = .tyFifo :=
    (copyToUser_type ..).trans hType
  rcases Nat.lt_or_ge c.userBytes (4 * blockBuffer.length) with hFault | hCopied
  · refine iff_of_false ?_ (fun h => absurd h.2 (Nat.not_le.mpr hFault))
    rintro ⟨-, hDelivered⟩
    rw [delivered_of_error (copyToUser_of_lt hFault)] at hDelivered
    exact hSome (nil_eq_wordBytes.mp hDelivered)
  · obtain ⟨hRetval, hBytes⟩ :
        (copyToUser c f blockBuffer [] blockBuffer).retval = .ok (4 * blockBuffer.length) ∧
          (copyToUser c f blockBuffer [] blockBuffer).copied = wordBytes blockBuffer := copyToUser_of_le hCopied
    constructor
    · exact fun h => ⟨h.1.retval _ hRetval, hCopied⟩
    · rintro ⟨hFits, -⟩
      refine ⟨⟨?_, ?_, fun hMem => absurd (hMem.symm.trans hType) (by decide)⟩, ?_⟩
      · intro n hOk
        cases hRetval.symm.trans hOk
        exact hFits
      · rw [hBytes, length_wordBytes]
        exact hFits
      · rw [delivered_of_ok hFile hRetval, hBytes]

theorem respects_iff (hRead : pspinRead c mem f count = some o) :
    Respects mem f count o ∧ o.delivered = wordBytes o.taken ↔ (DrainsFifo c f → LoopSafe c count) := by
  have hTypes : f.type = .tyMem → ¬ DrainsFifo c f :=
    fun hMem hFifo => absurd (hMem.symm.trans hFifo.type) (by decide)
  cases pspinRead_cases hRead with
  | failed e hMem hFifo =>
    refine iff_of_true ⟨respects_empty (fun n hOk => nomatch hOk), ?_⟩ fun h => absurd h hFifo
    exact delivered_of_error rfl
  | atEnd hMem hType =>
    refine iff_of_true ⟨respects_empty ?_, ?_⟩ fun h => absurd h (hTypes hType)
    · rintro n ⟨rfl⟩
      rfl
    · exact delivered_of_tyMem hType
  | memory h =>
    refine iff_of_true ⟨respects_memory h, ?_⟩ fun hFifo => absurd hFifo (hTypes h.type)
    rw [copyToUser_taken]
    exact delivered_of_tyMem ((copyToUser_type ..).trans h.type)
  | stopped h e blockBuffer hLoop =>
    have hDelivered : (ReadOutcome.mk (.error e) f [] [] blockBuffer).delivered = [] := delivered_of_error rfl
    obtain ⟨rfl, hDisturbed⟩ := stopped_of_loop hLoop
    rw [hDelivered, nil_eq_wordBytes]
    constructor
    · rintro ⟨-, hEmpty⟩ -
      change c.block = [] at hEmpty
      exact ⟨by simp [hEmpty], by simp [hEmpty], fun hSome => absurd hEmpty hSome⟩
    · intro hSafe
      refine ⟨respects_empty (fun n hOk => nomatch hOk), ?_⟩
      by_contra hSome
      exact (hSafe h).undisturbed hSome hDisturbed
  | gathered h blockBuffer hLoop =>
    rw [copyToUser_taken, respects_gathered h.type (gathered_ne_nil hLoop)]
    obtain ⟨rfl, hUndisturbed⟩ := gathered_of_loop hLoop
    constructor
    · exact fun hFits _ => ⟨hFits.1, hFits.2, fun _ => hUndisturbed⟩
    · exact fun hSafe => ⟨(hSafe h).count, (hSafe h).userBytes⟩

end Outcomes

section Sessions

theorem delivered_cases {c : ReadCall} {mem : Nat → BitVec 32} {f : File} {count : BitVec 64} {o : ReadOutcome}
    (hRead : pspinRead c mem f count = some o) : o.delivered = wordBytes o.taken ∨ o.delivered = [] := by
  cases pspinRead_cases hRead with
  | failed e hMem hFifo => exact Or.inr (delivered_of_error rfl)
  | atEnd hMem hType => exact Or.inr (delivered_of_tyMem hType)
  | memory h => exact Or.inr (delivered_of_tyMem ((copyToUser_type ..).trans h.type))
  | stopped h e blockBuffer hLoop => exact Or.inr (delivered_of_error rfl)
  | gathered h blockBuffer hLoop =>
    rcases Nat.lt_or_ge c.userBytes (4 * blockBuffer.length) with hFault | hCopied
    · exact Or.inr (delivered_of_error (copyToUser_of_lt hFault))
    · obtain ⟨hRetval, hBytes⟩ :
          (copyToUser c f blockBuffer [] blockBuffer).retval = .ok (4 * blockBuffer.length) ∧
            (copyToUser c f blockBuffer [] blockBuffer).copied = wordBytes blockBuffer := copyToUser_of_le hCopied
      left
      rw [delivered_of_ok ((copyToUser_type ..).trans h.type) hRetval, hBytes, copyToUser_taken]

theorem effect_delivered {f : File} {call : FileCall} {e : Effect} (hEffect : call.effect f = some e) :
    e.delivered = wordBytes e.taken ∨ e.delivered = [] := by
  cases call with
  | llseek c off whence =>
    cases hEffect
    exact Or.inr rfl
  | read c mem count =>
    rw [FileCall.effect] at hEffect
    split at hEffect
    · cases hEffect
      exact Or.inr rfl
    · obtain ⟨o, hRead, rfl⟩ := Option.map_eq_some_iff.mp hEffect
      exact delivered_cases hRead
  | write c user buf count =>
    cases hEffect
    exact Or.inr rfl
  | ioctl refused mem cmd msg =>
    cases refused <;> cases hEffect <;> exact Or.inr rfl

def Missing (s : Session) : Prop := s.delivered.length < (wordBytes s.taken).length

/-- What is missing after a call is missing after all later ones. -/
theorem not_recoverable_of_missing {s : Session} (h : Missing s) : ¬ Recoverable s := by
  rintro ⟨calls, s', hRun, hComplete⟩
  have hStep : ∀ s a s', Missing s → Session.step s a = some s' → Missing s' := by
    intro s a s' hMissing hNext
    obtain ⟨e, hEffect, rfl⟩ := Session.step_eq_some hNext
    change (s.delivered ++ e.delivered).length < (wordBytes (s.taken ++ e.taken)).length
    rw [wordBytes_append, List.length_append, List.length_append]
    rw [Missing] at hMissing
    rcases effect_delivered hEffect with hAll | hNone
    · rw [hAll]
      omega
    · rw [hNone, List.length_nil]
      omega
  have hMissing := run_invariant Missing hStep h hRun
  rw [Missing, hComplete] at hMissing
  exact Nat.lt_irrefl _ hMissing

theorem complete_after {s : Session} {e : Effect} (fd : Nat) (hComplete : Complete s)
    (hAll : e.delivered = wordBytes e.taken) : Complete (s.after fd e) := by
  change s.delivered ++ e.delivered = wordBytes (s.taken ++ e.taken)
  rw [wordBytes_append, hAll, hComplete]

theorem recoverable_iff {s : Session} {fd : Nat} {call : FileCall} {e : Effect} (hComplete : Complete s)
    (hEffect : call.effect (s.files fd) = some e) :
    Recoverable (s.after fd e) ↔ e.delivered = wordBytes e.taken := by
  constructor
  · intro hRecoverable
    rcases effect_delivered hEffect with hAll | hNone
    · exact hAll
    · rcases Nat.eq_zero_or_pos e.taken.length with hEmpty | hTaken
      · rw [hNone, List.eq_nil_of_length_eq_zero hEmpty]
        rfl
      · refine absurd hRecoverable (not_recoverable_of_missing ?_)
        change (s.delivered ++ e.delivered).length < (wordBytes (s.taken ++ e.taken)).length
        rw [hNone, hComplete, List.append_nil, length_wordBytes, length_wordBytes, List.length_append]
        omega
  · exact fun hAll => ⟨[], _, rfl, complete_after fd hComplete hAll⟩

theorem later_recoverable_iff {s : Session} {fd : Nat} {call : FileCall} {e : Effect} (hComplete : Complete s)
    (hEffect : call.effect (s.files fd) = some e) (hNext : s.step (fd, call) = some (s.after fd e)) :
    (∀ s', s.step (fd, call) = some s' → Recoverable s') ↔ e.delivered = wordBytes e.taken := by
  rw [← recoverable_iff hComplete hEffect]
  constructor
  · exact fun h => h _ hNext
  · intro h s' hSome
    cases hNext.symm.trans hSome
    exact h

theorem read_keeps_iff {f : File} {c : ReadCall} {mem : Nat → BitVec 32} {count : BitVec 64} {e : Effect}
    (hEffect : (FileCall.read c mem count).effect f = some e) :
    ((∀ c' mem' count', FileCall.read c mem count = .read c' mem' count' → c'.refused = false →
        ∀ o, pspinRead c' mem' f count' = some o → Respects mem' f count' o) ∧
      e.delivered = wordBytes e.taken) ↔ (c.refused = false ∧ DrainsFifo c f → LoopSafe c count) := by
  cases hRefused : c.refused with
  | true =>
    rw [FileCall.effect, if_pos hRefused] at hEffect
    cases hEffect
    refine iff_of_true ⟨?_, rfl⟩ fun h => absurd h.1 (by decide)
    rintro _ _ _ ⟨rfl⟩ hServed
    exact absurd (hRefused.symm.trans hServed) (by decide)
  | false =>
    rw [FileCall.effect, if_neg (ne_true_of_eq_false hRefused)] at hEffect
    obtain ⟨o, hRead, rfl⟩ := Option.map_eq_some_iff.mp hEffect
    have hIff := respects_iff hRead
    constructor
    · rintro ⟨hRespects, hAll⟩ ⟨-, hDrains⟩
      exact hIff.mp ⟨hRespects c mem count rfl hRefused o hRead, hAll⟩ hDrains
    · intro hSafe
      obtain ⟨hRespects, hAll⟩ := hIff.mpr fun hDrains => hSafe ⟨rfl, hDrains⟩
      refine ⟨?_, hAll⟩
      rintro _ _ _ ⟨rfl⟩ - o' hRead'
      cases hRead.symm.trans hRead'
      exact hRespects

theorem keeps_iff {s s' : Session} {a : Nat × FileCall} (hComplete : Complete s) (hNext : s.step a = some s') :
    Keeps s a ↔ ReadSafe (s.files a.1) a.2 := by
  obtain ⟨fd, call⟩ := a
  obtain ⟨e, hEffect, rfl⟩ := Session.step_eq_some hNext
  rw [Keeps, later_recoverable_iff hComplete hEffect hNext]
  cases call with
  | read c mem count => exact read_keeps_iff hEffect
  | llseek c off whence =>
    cases hEffect
    exact iff_of_true ⟨fun _ _ _ hCall => FileCall.noConfusion hCall, rfl⟩ trivial
  | write c user buf count =>
    cases hEffect
    exact iff_of_true ⟨fun _ _ _ hCall => FileCall.noConfusion hCall, rfl⟩ trivial
  | ioctl refused mem cmd msg =>
    cases refused <;> cases hEffect <;>
      exact iff_of_true ⟨fun _ _ _ hCall => FileCall.noConfusion hCall, rfl⟩ trivial

/-- Reads keep to the count and lose nothing as long as what each read of the FIFO gathers fits its
count, and is handed over once there is any. -/
theorem reads_keep_iff (types : Nat → DeviceType) (calls : List (Nat × FileCall)) :
    Along Session.step Keeps (Session.opened types) calls ↔
      Along Session.step (fun s a => ReadSafe (s.files a.1) a.2) (Session.opened types) calls := by
  have hStep : ∀ s a s', Complete s → ReadSafe (s.files a.1) a.2 →
      Session.step s a = some s' → Complete s' := by
    intro s a s' hComplete hSafe hNext
    have hKeeps := (keeps_iff hComplete hNext).mpr hSafe
    obtain ⟨e, hEffect, rfl⟩ := Session.step_eq_some hNext
    exact complete_after a.1 hComplete ((recoverable_iff hComplete hEffect).mp (hKeeps.2 _ hNext))
  have hOpened : Complete (Session.opened types) := rfl
  exact (along_congr (fun s a s' hComplete hNext => (keeps_iff hComplete hNext).symm) hStep hOpened calls).symm

/-- Two words are there when four bytes are asked for. -/
def shortRead : Nat × FileCall :=
  (0, .read ⟨false, false, false, false, 8, [.word 0x41, .word 0x42, .timeout]⟩ (fun _ => 0) 4)

theorem short_read_overruns : ¬ ∀ (types : Nat → DeviceType) (calls : List (Nat × FileCall)),
    Along Session.step Keeps (Session.opened types) calls := by
  intro hAll
  have hRead : (pspinRead ⟨false, false, false, false, 8, [.word 0x41, .word 0x42, .timeout]⟩ (fun _ => 0)
      ⟨.tyFifo, 0⟩ 4).map (fun o => o.copied.length) = some 8 := by decide +kernel
  obtain ⟨o, hSome, hLength⟩ := Option.map_eq_some_iff.mp hRead
  have hNext : (Session.opened fun _ => .tyFifo).step shortRead =
      some ((Session.opened fun _ => .tyFifo).after 0 o.effect) := by
    rw [Session.step, shortRead, FileCall.effect, if_neg (by decide)]
    change Option.map _ (Option.map _ (pspinRead _ _ ⟨.tyFifo, 0⟩ _)) = _
    rw [hSome]
    rfl
  have hKeeps := ((along_cons hNext []).mp (hAll (fun _ => .tyFifo) [shortRead])).1
  have hCopied := (hKeeps.1 _ _ _ rfl rfl o hSome).copied
  rw [hLength] at hCopied
  exact absurd hCopied (by decide)

end Sessions

end FPsPIN.Driver
