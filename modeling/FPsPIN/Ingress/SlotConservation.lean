import FPsPIN.Ingress.HerDelivery
import FPsPIN.Lib.Trace
import FPsPIN.PktAlloc.SlotSafety

/-!
# What becomes of a slot

The allocator and the ingress DMA, with the packets of the slots that were
taken from the free FIFOs. The slots are numbered in the order in which they
are taken, since the same address is taken again and again. The DMA engine
completes its writes in any order, each with or without an error; PsPIN gives
a feedback for each HER it was handed.

The release of a slot goes through the feedback of its HER only. A write that
fails has no HER, so its slot is gone, and so is the slot of a completion that
the latch drops.
-/

namespace FPsPIN.SlotConservation

open HerGen IngressDma Trace

structure Write (p : PktAlloc.Params) where
  id : Nat
  desc : WriteDesc p.addrWidth p.lenWidth p.tagWidth
deriving DecidableEq

structure Handed (p : PktAlloc.Params) where
  id : Nat
  gen : Completion p.addrWidth p.lenWidth p.tagWidth
deriving DecidableEq

structure Done (p : PktAlloc.Params) where
  write : Write p
  len : BitVec p.lenWidth
  error : BitVec 4

structure State (p : PktAlloc.Params) where
  alloc : PktAlloc.State p
  her : HerDelivery.State p.addrWidth p.lenWidth p.tagWidth
  /-- Slots taken so far. -/
  next : Nat
  dma : List (Write p)
  /-- The slot of the completion in the latch. -/
  latched : Nat
  held : List (Handed p)
  /-- Slots that were put back into a free FIFO. -/
  returned : List Nat

structure Input (p : PktAlloc.Params) where
  pktTag : BitVec p.tagWidth
  pktLen : BitVec p.lenWidth
  pktValid : Bool
  dmaReady : Bool
  done : Option (Done p)
  herReady : Bool
  conf : Conf
  feedback : Option (Handed p)

variable {p : PktAlloc.Params}

/-- The DMA engine returns the address with the tag. -/
def Done.completion (d : Done p) : Completion p.addrWidth p.lenWidth p.tagWidth :=
  ⟨d.write.desc.addr, d.len, d.write.desc.tag⟩

def init (p : PktAlloc.Params) : State p := ⟨PktAlloc.init p, HerDelivery.init, 0, [], 0, [], []⟩

section Step

variable (s : State p) (i : Input p)

def allocInput : PktAlloc.Input p where
  pktTag := i.pktTag
  pktLen := i.pktLen
  pktValid := i.pktValid
  feedbackValid := i.feedback.isSome
  feedbackHerAddr := (i.feedback.map fun x => x.gen.addr).getD 0
  feedbackHerSize := (i.feedback.map fun x => x.gen.len).getD 0
  writeReady := writeDescReady i.dmaReady (genReady s.her.store i.herReady)

def herInput : HerDelivery.Input p.addrWidth p.lenWidth p.tagWidth where
  status := i.done.map fun d => ⟨d.completion, d.error⟩
  herReady := i.herReady
  conf := i.conf
  writeDesc := (PktAlloc.writeDesc s.alloc (allocInput s i)).map fun x => ⟨x.1, x.2.1, x.2.2⟩
  dmaReady := i.dmaReady

/-- The slots that leave the free FIFOs, and those written to them. -/
def taken : List (PktAlloc.Slot p) :=
  PktAlloc.popped s.alloc (allocInput s i) .slot0 ++ PktAlloc.popped s.alloc (allocInput s i) .slot1

def freed : List (PktAlloc.Slot p) :=
  PktAlloc.pushed s.alloc (allocInput s i) .slot0 ++ PktAlloc.pushed s.alloc (allocInput s i) .slot1

def entered : List (Write p) := (HerDelivery.accepted s.her (herInput s i)).toList.map (Write.mk s.next)

def unfinished : List (Write p) := i.done.elim s.dma fun d => s.dma.erase d.write

def succeeded : Option (Done p) := i.done.filter fun d => d.error == 0

def handed : List (Handed p) := if s.her.latch.valid && i.herReady then [⟨s.latched, s.her.latch.gen⟩] else []

def answered : Option (Handed p) :=
  if PktAlloc.feedbackTaken s.alloc (allocInput s i) then i.feedback else none

/-- The environment: the DMA engine ends writes that it has, with no more bytes than asked for, and PsPIN
answers HERs that it has. -/
def Allowed : Prop :=
  (∀ d ∈ i.done, d.write ∈ s.dma ∧ d.len.toNat ≤ d.write.desc.len.toNat) ∧
    ∀ x ∈ i.feedback, x ∈ s.held

instance : Decidable (Allowed s i) := inferInstanceAs (Decidable (_ ∧ _))

def next : State p where
  alloc := PktAlloc.step s.alloc (allocInput s i)
  her := HerDelivery.step s.her (herInput s i)
  next := s.next + (taken s i).length
  dma := unfinished s i ++ entered s i
  latched := ((succeeded i).map fun d => d.write.id).getD s.latched
  held := (answered s i).elim s.held s.held.erase ++ handed s i
  returned := s.returned ++
    (((answered s i).filter fun x => (freed s i).any fun slot => slot.addr == x.gen.addr).map Handed.id).toList

def step : Option (State p) := if Allowed s i then some (next s i) else none

end Step

section Places

variable (s : State p)

def inDma : List Nat := s.dma.map Write.id

def handedOver : List Nat := s.held.map Handed.id ++ s.returned

def behindDma : List Nat := (if s.her.latch.valid then [s.latched] else []) ++ handedOver s

/-- Every slot taken so far is in the DMA engine, in the latch, with PsPIN or back in a free FIFO. -/
def Kept : Prop := ∀ k < s.next, k ∈ inDma s ∨ k ∈ behindDma s

/-- Writes end without error, and with the latch clear. A completion may also replace one that was handed
over, if the latch is not cleared in this cycle. -/
def NoLoss (i : Input p) : Prop :=
  ∀ d ∈ i.done, d.error = 0 ∧ (s.her.latch.valid = true →
    genReady s.her.store i.herReady = false ∧ (i.herReady = true ∨ s.latched ∈ handedOver s))

end Places

section Allocator

variable {s : State p} {i : Input p}

/-- What the allocator does with a packet: it takes no slot, or a slot of a class that serves the length,
and then it is past the fill phase and the DMA engine is ready. -/
inductive TakeCase (s : State p) (i : Input p) : Prop where
  | idle (hDesc : PktAlloc.writeDesc s.alloc (allocInput s i) = none) (hTaken : taken s i = [])
  | take (addr : BitVec p.addrWidth) (c : PktAlloc.SlotClass)
      (hDesc : PktAlloc.writeDesc s.alloc (allocInput s i) = some (addr, i.pktLen, i.pktTag))
      (hTaken : taken s i = [⟨c, addr⟩]) (hClass : p.classOf i.pktLen.toNat = some c)
      (hFilled : s.alloc.initialisedQ = true) (hDma : i.dmaReady = true)
      (hGen : genReady s.her.store i.herReady = true)

theorem take_cases (s : State p) (i : Input p) : TakeCase s i := by
  cases hAlloc : PktAlloc.allocClass s.alloc (allocInput s i) with
  | none =>
    refine TakeCase.idle ?_ ?_
    · simp [PktAlloc.writeDesc, hAlloc]
    · simp [taken, PktAlloc.popped, PktAlloc.deqReady, hAlloc]
  | some c =>
    cases hOut : PktAlloc.deqOutput s.alloc c with
    | none =>
      refine TakeCase.idle ?_ ?_
      · simp [PktAlloc.writeDesc, hAlloc, hOut]
      · cases c <;> simp [taken, PktAlloc.popped, PktAlloc.deqReady, hAlloc, hOut]
    | some addr =>
      have hTaken : taken s i = [⟨c, addr⟩] := by
        cases c <;> simp [taken, PktAlloc.popped, PktAlloc.deqReady, hAlloc, hOut]
      have hDesc : PktAlloc.writeDesc s.alloc (allocInput s i) = some (addr, i.pktLen, i.pktTag) := by
        rw [PktAlloc.writeDesc, hAlloc, Option.bind_some, hOut]
        rfl
      unfold PktAlloc.allocClass at hAlloc
      split at hAlloc
      · next hAccepted =>
        simp only [PktAlloc.pktAccepted, PktAlloc.pktReady, allocInput, writeDescReady,
          Bool.and_eq_true] at hAccepted
        obtain ⟨-, ⟨⟨⟨hDma, hGen⟩, hFilled⟩, -⟩, -⟩ := hAccepted
        exact TakeCase.take addr c hDesc hTaken hAlloc hFilled hDma hGen
      · cases hAlloc

/-- A slot that is taken goes to the DMA engine in the same cycle. -/
inductive EnterCase (s : State p) (i : Input p) : Prop where
  | idle (hEntered : entered s i = []) (hNext : (next s i).next = s.next)
  | enter (desc : WriteDesc p.addrWidth p.lenWidth p.tagWidth) (hEntered : entered s i = [⟨s.next, desc⟩])
      (hNext : (next s i).next = s.next + 1) (hClass : (p.classOf desc.len.toNat).isSome = true)
      (hFilled : s.alloc.initialisedQ = true)

theorem enter_cases (s : State p) (i : Input p) : EnterCase s i := by
  cases take_cases s i with
  | idle hDesc hTaken =>
    refine EnterCase.idle ?_ ?_
    · simp [entered, HerDelivery.accepted, dmaDesc, herInput, hDesc]
    · simp [next, hTaken]
  | take addr c hDesc hTaken hClass hFilled hDma hGen =>
    refine EnterCase.enter ⟨addr, i.pktLen, i.pktTag⟩ ?_ ?_ (by rw [hClass]; rfl) hFilled
    · simp [entered, HerDelivery.accepted, HerDelivery.herGenReady, dmaDesc, herInput, hDesc, hDma, hGen]
    · simp [next, hTaken]

theorem mem_entered {w : Write p} (hMem : w ∈ entered s i) :
    w.id = s.next ∧ w.id < (next s i).next ∧ (p.classOf w.desc.len.toNat).isSome = true := by
  cases enter_cases s i with
  | idle hEntered hNext =>
    rw [hEntered] at hMem
    cases hMem
  | enter desc hEntered hNext hClass hFilled =>
    rw [hEntered] at hMem
    cases List.mem_singleton.mp hMem
    exact ⟨rfl, hNext ▸ Nat.lt_succ_self s.next, hClass⟩

/-- A feedback that is taken puts its slot back, if a class serves its length. -/
theorem freed_of_answered {x : Handed p} (hAnswered : answered s i = some x)
    (hFilled : s.alloc.initialisedQ = true) (hClass : (p.classOf x.gen.len.toNat).isSome = true) :
    ((freed s i).any fun slot => slot.addr == x.gen.addr) = true := by
  unfold answered at hAnswered
  split at hAnswered
  · next hTaken =>
    obtain ⟨c, hc⟩ := Option.isSome_iff_exists.mp hClass
    have hReady : PktAlloc.enqReady s.alloc c = true := by
      simp only [PktAlloc.feedbackTaken, PktAlloc.feedbackReady, Bool.and_eq_true] at hTaken
      cases c
      · exact hTaken.2.1
      · exact hTaken.2.2
    have hFree : PktAlloc.freeClass s.alloc (allocInput s i) = some c := by
      rw [PktAlloc.freeClass, if_pos hTaken]
      simpa [allocInput, hAnswered] using hc
    have hAddr : (allocInput s i).feedbackHerAddr = x.gen.addr := by simp [allocInput, hAnswered]
    have hPushed : PktAlloc.pushed s.alloc (allocInput s i) c = [⟨c, x.gen.addr⟩] := by
      simp [PktAlloc.pushed, hReady, PktAlloc.enqData, hFilled, hFree, hAddr]
    refine List.any_eq_true.mpr ⟨⟨c, x.gen.addr⟩, ?_, beq_self_eq_true _⟩
    cases c
    · exact List.mem_append_left _ (hPushed ▸ List.mem_singleton_self _)
    · exact List.mem_append_right _ (hPushed ▸ List.mem_singleton_self _)
  · cases hAnswered

end Allocator

section Moves

variable {s : State p} {i : Input p} {k : Nat}

theorem completed_eq : completed (herInput s i).status = (succeeded i).map Done.completion := by
  simp only [completed, herInput, succeeded]
  cases i.done with
  | none => rfl
  | some d => cases d.error == 0 <;> simp [Option.filter]

theorem valid_next : (next s i).her.latch.valid =
    if s.her.latch.valid && genReady s.her.store i.herReady then false
    else (succeeded i).isSome || s.her.latch.valid := by
  have hLatch : (next s i).her.latch =
      s.her.latch.step (herInput s i).status (genReady s.her.store i.herReady) := rfl
  rw [hLatch, Latch.step, completed_eq, Option.isSome_map]

theorem gen_next : (next s i).her.latch.gen = ((succeeded i).map Done.completion).getD s.her.latch.gen := by
  have hLatch : (next s i).her.latch =
      s.her.latch.step (herInput s i).status (genReady s.her.store i.herReady) := rfl
  rw [hLatch, Latch.step, completed_eq]

theorem mem_behindDma {s : State p} :
    k ∈ behindDma s ↔ (s.her.latch.valid = true ∧ k = s.latched) ∨ k ∈ handedOver s := by
  unfold behindDma
  cases s.her.latch.valid <;> simp

theorem mem_handedOver {s : State p} : k ∈ handedOver s ↔ k ∈ s.held.map Handed.id ∨ k ∈ s.returned :=
  List.mem_append

theorem succeeded_eq_some {d : Done p} : succeeded i = some d ↔ i.done = some d ∧ d.error = 0 := by
  rw [succeeded, Option.filter_eq_some_iff, beq_iff_eq]

theorem inDma_cases (hMem : k ∈ inDma s) :
    k ∈ (unfinished s i).map Write.id ∨ ∃ d, i.done = some d ∧ d.write.id = k := by
  obtain ⟨w, hw, rfl⟩ := List.mem_map.mp hMem
  unfold unfinished
  cases hDone : i.done with
  | none => exact Or.inl hMem
  | some d =>
    rcases eq_or_ne w d.write with rfl | hNe
    · exact Or.inr ⟨d, rfl, rfl⟩
    · exact Or.inl (List.mem_map_of_mem ((List.mem_erase_of_ne hNe).mpr hw))

theorem unfinished_sublist : (unfinished s i).Sublist s.dma := by
  unfold unfinished
  cases i.done with
  | none => exact List.Sublist.refl _
  | some d => exact List.erase_sublist

theorem not_mem_unfinished (hNodup : (inDma s).Nodup) {d : Done p} (hDone : i.done = some d)
    (hMem : d.write ∈ s.dma) :
    d.write.id ∉ (unfinished s i).map Write.id := by
  have hPerm := (List.perm_cons_erase hMem).map Write.id
  have hAll := hPerm.nodup_iff.mp hNodup
  rw [unfinished, hDone]
  exact (List.nodup_cons.mp hAll).1

theorem mem_handed : k ∈ (handed s i).map Handed.id ↔
    (s.her.latch.valid = true ∧ i.herReady = true) ∧ k = s.latched := by
  unfold handed
  cases s.her.latch.valid <;> cases i.herReady <;> simp

theorem answered_feedback {x : Handed p} (hAnswered : answered s i = some x) : i.feedback = some x := by
  unfold answered at hAnswered
  split at hAnswered
  · exact hAnswered
  · exact nomatch hAnswered

theorem held_next {x : Handed p} (hMem : x ∈ (next s i).held) : x ∈ s.held ∨ x ∈ handed s i := by
  rcases List.mem_append.mp hMem with hMem | hMem
  · cases hAnswered : answered s i with
    | none => exact Or.inl (by simpa [hAnswered] using hMem)
    | some y =>
      rw [hAnswered] at hMem
      exact Or.inl (List.mem_of_mem_erase hMem)
  · exact Or.inr hMem

theorem handedOver_of_next (hFeedback : ∀ x ∈ i.feedback, x ∈ s.held) (hMem : k ∈ handedOver (next s i)) :
    k ∈ handedOver s ∨ (s.her.latch.valid = true ∧ i.herReady = true) ∧ k = s.latched := by
  rcases mem_handedOver.mp hMem with hMem | hMem
  · obtain ⟨x, hx, rfl⟩ := List.mem_map.mp hMem
    rcases held_next hx with hHeld | hHanded
    · exact Or.inl (mem_handedOver.mpr (Or.inl (List.mem_map_of_mem hHeld)))
    · exact Or.inr (mem_handed.mp (List.mem_map_of_mem hHanded))
  · rcases List.mem_append.mp hMem with hMem | hMem
    · exact Or.inl (mem_handedOver.mpr (Or.inr hMem))
    · obtain ⟨x, hx, rfl⟩ := Option.map_eq_some_iff.mp (Option.mem_toList.mp hMem)
      have hHeld := hFeedback x (answered_feedback (Option.filter_eq_some_iff.mp hx).1)
      exact Or.inl (mem_handedOver.mpr (Or.inl (List.mem_map_of_mem hHeld)))

theorem behindDma_of_next (hFeedback : ∀ x ∈ i.feedback, x ∈ s.held) (hMem : k ∈ behindDma (next s i)) :
    k ∈ behindDma s ∨ ∃ d, succeeded i = some d ∧ d.write.id = k ∧
      (s.her.latch.valid = true → genReady s.her.store i.herReady = false) := by
  rcases mem_behindDma.mp hMem with ⟨hValid, rfl⟩ | hMem
  · rw [valid_next] at hValid
    split at hValid
    · exact nomatch hValid
    · next hKept =>
      cases hDone : succeeded i with
      | none =>
        rw [hDone] at hValid
        exact Or.inl (mem_behindDma.mpr (Or.inl ⟨by simpa using hValid, by simp [next, hDone]⟩))
      | some d =>
        refine Or.inr ⟨d, rfl, by simp [next, hDone], fun hLatch => ?_⟩
        simpa [hLatch] using hKept
  · rcases handedOver_of_next hFeedback hMem with hMem | ⟨⟨hValid, -⟩, hk⟩
    · exact Or.inl (mem_behindDma.mpr (Or.inr hMem))
    · exact Or.inl (mem_behindDma.mpr (Or.inl ⟨hValid, hk⟩))

end Moves

section Invariant

variable {s s' : State p} {i : Input p} {k : Nat}

/-- A number is given to one slot, which is in the DMA engine or behind it. -/
structure Numbered (s : State p) : Prop where
  fresh : ∀ k, k ∈ inDma s ∨ k ∈ behindDma s → k < s.next
  nodup : (inDma s).Nodup
  apart : ∀ k ∈ behindDma s, k ∉ inDma s

/-- For the length of every packet there is a class, and no slot is taken while the FIFOs are filled. -/
structure Served (s : State p) : Prop where
  writes : ∀ w ∈ s.dma, (p.classOf w.desc.len.toNat).isSome = true
  latch : s.her.latch.valid = true → (p.classOf s.her.latch.gen.len.toNat).isSome = true
  hers : ∀ x ∈ s.held, (p.classOf x.gen.len.toNat).isSome = true
  filling : s.alloc.initialisedQ = false → s.next = 0

theorem numbered_init : Numbered (init p) := by
  refine ⟨?_, List.nodup_nil, List.forall_mem_nil _⟩
  rintro k (hMem | hMem) <;> exact nomatch hMem

theorem served_init : Served (init p) :=
  ⟨List.forall_mem_nil _, fun hValid => absurd hValid Bool.false_ne_true, List.forall_mem_nil _, fun _ => rfl⟩

theorem inDma_next : inDma (next s i) = (unfinished s i).map Write.id ++ (entered s i).map Write.id :=
  List.map_append

theorem inDma_of_next (hMem : k ∈ inDma (next s i)) :
    k ∈ (unfinished s i).map Write.id ∨ k = s.next ∧ k < (next s i).next := by
  rw [inDma_next] at hMem
  rcases List.mem_append.mp hMem with hMem | hMem
  · exact Or.inl hMem
  · obtain ⟨w, hw, rfl⟩ := List.mem_map.mp hMem
    obtain ⟨hId, hLt, -⟩ := mem_entered hw
    exact Or.inr ⟨hId, hLt⟩

theorem next_le : s.next ≤ (next s i).next := Nat.le_add_right _ _

theorem mem_inDma_of_unfinished (hMem : k ∈ (unfinished s i).map Write.id) : k ∈ inDma s :=
  (unfinished_sublist.map _).subset hMem

theorem Numbered.lt_of_behind (h : Numbered s) (hAllowed : Allowed s i) (hMem : k ∈ behindDma (next s i)) :
    k < s.next := by
  rcases behindDma_of_next hAllowed.2 hMem with hOld | ⟨d, hd, rfl, -⟩
  · exact h.fresh k (Or.inr hOld)
  · exact h.fresh _ (Or.inl (List.mem_map_of_mem (hAllowed.1 d (succeeded_eq_some.mp hd).1).1))

theorem Numbered.nodup_next (h : Numbered s) : (inDma (next s i)).Nodup := by
  have hOld : ((unfinished s i).map Write.id).Nodup := h.nodup.sublist (unfinished_sublist.map _)
  rw [inDma_next]
  cases enter_cases s i with
  | idle hEntered hNext => rwa [hEntered, List.map_nil, List.append_nil]
  | enter desc hEntered hNext hClass hFilled =>
    rw [hEntered]
    refine List.nodup_append.mpr ⟨hOld, List.nodup_singleton _, fun k hk k' hk' hSame => ?_⟩
    have hLt := h.fresh k (Or.inl (mem_inDma_of_unfinished hk))
    have hEq : k' = s.next := List.mem_singleton.mp hk'
    omega

theorem Numbered.step (h : Numbered s) (hAllowed : Allowed s i) : Numbered (next s i) := by
  refine ⟨?_, h.nodup_next, fun k hMem hIn => ?_⟩
  · rintro k (hMem | hMem)
    · rcases inDma_of_next hMem with hMem | ⟨-, hLt⟩
      · exact Nat.lt_of_lt_of_le (h.fresh k (Or.inl (mem_inDma_of_unfinished hMem))) next_le
      · exact hLt
    · exact Nat.lt_of_lt_of_le (h.lt_of_behind hAllowed hMem) next_le
  · have hLt := h.lt_of_behind hAllowed hMem
    rcases inDma_of_next hIn with hIn | ⟨hEq, -⟩
    · rcases behindDma_of_next hAllowed.2 hMem with hOld | ⟨d, hd, rfl, -⟩
      · exact h.apart k hOld (mem_inDma_of_unfinished hIn)
      · obtain ⟨hDone, -⟩ := succeeded_eq_some.mp hd
        exact not_mem_unfinished h.nodup hDone (hAllowed.1 d hDone).1 hIn
    · omega

theorem classOf_isSome_of_le {len len' : Nat} (hLe : len ≤ len') (h : (p.classOf len').isSome = true) :
    (p.classOf len).isSome = true := by
  unfold PktAlloc.Params.classOf at h ⊢
  split_ifs at h ⊢ <;> first | rfl | omega

theorem Served.writes_next (h : Served s) : ∀ w ∈ (next s i).dma, (p.classOf w.desc.len.toNat).isSome = true := by
  intro w hMem
  rcases List.mem_append.mp hMem with hMem | hMem
  · exact h.writes w (unfinished_sublist.subset hMem)
  · exact (mem_entered hMem).2.2

theorem Served.latch_next (h : Served s) (hAllowed : Allowed s i) (hValid : (next s i).her.latch.valid = true) :
    (p.classOf (next s i).her.latch.gen.len.toNat).isSome = true := by
  rw [gen_next]
  cases hSucceeded : succeeded i with
  | none =>
    rw [valid_next, hSucceeded] at hValid
    refine h.latch ?_
    split at hValid
    · exact nomatch hValid
    · simpa using hValid
  | some d =>
    obtain ⟨hWrite, hLen⟩ := hAllowed.1 d (succeeded_eq_some.mp hSucceeded).1
    exact classOf_isSome_of_le hLen (h.writes d.write hWrite)

theorem Served.step (h : Served s) (hAllowed : Allowed s i) : Served (next s i) := by
  refine ⟨h.writes_next, h.latch_next hAllowed, fun x hMem => ?_, fun hFilling => ?_⟩
  · rcases held_next hMem with hMem | hMem
    · exact h.hers x hMem
    · unfold handed at hMem
      split at hMem
      · next hValid =>
        cases List.mem_singleton.mp hMem
        exact h.latch (Bool.and_eq_true _ _ ▸ hValid).1
      · exact nomatch hMem
  · have hOld : s.alloc.initialisedQ = false := (Bool.or_eq_false_iff.mp hFilling).1
    cases enter_cases s i with
    | idle hEntered hNext => exact hNext.trans (h.filling hOld)
    | enter desc hEntered hNext hClass hFilled => exact absurd (hOld.symm.trans hFilled) (by decide)

structure Inv (s : State p) : Prop where
  numbered : Numbered s
  served : Served s

theorem Inv.initialised (h : Inv s) (hSome : s.next ≠ 0) : s.alloc.initialisedQ = true := by
  by_contra hNot
  exact hSome (h.served.filling (Bool.eq_false_iff.mpr hNot))

theorem Inv.handedOver_next (h : Inv s) (hMem : k ∈ handedOver s) : k ∈ handedOver (next s i) := by
  have hLt := h.numbered.fresh k (Or.inr (mem_behindDma.mpr (Or.inr hMem)))
  rcases mem_handedOver.mp hMem with hMem | hMem
  · obtain ⟨x, hx, rfl⟩ := List.mem_map.mp hMem
    cases hAnswered : answered s i with
    | none =>
      refine mem_handedOver.mpr (Or.inl (List.mem_map_of_mem (List.mem_append_left _ ?_)))
      rwa [hAnswered]
    | some y =>
      rcases eq_or_ne x y with rfl | hNe
      · have hFreed := freed_of_answered hAnswered (h.initialised (Nat.ne_zero_of_lt hLt)) (h.served.hers x hx)
        refine mem_handedOver.mpr (Or.inr (List.mem_append_right _ (Option.mem_toList.mpr ?_)))
        exact Option.map_eq_some_iff.mpr ⟨x, Option.filter_eq_some_iff.mpr ⟨hAnswered, hFreed⟩, rfl⟩
      · refine mem_handedOver.mpr (Or.inl (List.mem_map_of_mem (List.mem_append_left _ ?_)))
        rw [hAnswered]
        exact (List.mem_erase_of_ne hNe).mpr hx
  · exact mem_handedOver.mpr (Or.inr (List.mem_append_left _ hMem))

end Invariant

section Loss

variable {s s' : State p} {i : Input p} {d : Done p}

theorem Numbered.latched_of_kept (h : Numbered s) (hAllowed : Allowed s i) (hDone : i.done = some d)
    (hKept : Kept (next s i)) :
    d.error = 0 ∧ (s.her.latch.valid = true → genReady s.her.store i.herReady = false) := by
  obtain ⟨hWrite, -⟩ := hAllowed.1 d hDone
  have hIn : d.write.id ∈ inDma s := List.mem_map_of_mem hWrite
  have hLt := h.fresh _ (Or.inl hIn)
  rcases hKept d.write.id (Nat.lt_of_lt_of_le hLt next_le) with hMem | hMem
  · rcases inDma_of_next hMem with hMem | ⟨hEq, -⟩
    · exact absurd hMem (not_mem_unfinished h.nodup hDone hWrite)
    · exact absurd hEq (Nat.ne_of_lt hLt)
  · rcases behindDma_of_next hAllowed.2 hMem with hMem | ⟨d', hd', -, hLatch⟩
    · exact absurd hIn (h.apart _ hMem)
    · obtain ⟨hDone', hError⟩ := succeeded_eq_some.mp hd'
      cases Option.some.inj (hDone.symm.trans hDone')
      exact ⟨hError, hLatch⟩

/-- The slot in the latch is kept under another completion only if PsPIN has its HER. -/
theorem Numbered.handedOver_of_kept (h : Numbered s) (hAllowed : Allowed s i) (hSucceeded : succeeded i = some d)
    (hValid : s.her.latch.valid = true) (hKept : Kept (next s i)) :
    i.herReady = true ∨ s.latched ∈ handedOver s := by
  have hBehind : s.latched ∈ behindDma s := mem_behindDma.mpr (Or.inl ⟨hValid, rfl⟩)
  have hLt := h.fresh _ (Or.inr hBehind)
  rcases hKept s.latched (Nat.lt_of_lt_of_le hLt next_le) with hMem | hMem
  · rcases inDma_of_next hMem with hMem | ⟨hEq, -⟩
    · exact absurd (mem_inDma_of_unfinished hMem) (h.apart _ hBehind)
    · exact absurd hEq (Nat.ne_of_lt hLt)
  · rcases mem_behindDma.mp hMem with ⟨-, hSame⟩ | hMem
    · have hEnded : d.write.id ∈ inDma s :=
        List.mem_map_of_mem (hAllowed.1 d (succeeded_eq_some.mp hSucceeded).1).1
      have hId : s.latched = d.write.id := by simpa [next, hSucceeded] using hSame
      exact absurd (hId ▸ hEnded) (h.apart _ hBehind)
    · rcases handedOver_of_next hAllowed.2 hMem with hMem | ⟨⟨-, hReady⟩, -⟩
      · exact Or.inr hMem
      · exact Or.inl hReady

theorem Numbered.noLoss_of_kept (h : Numbered s) (hAllowed : Allowed s i) (hKept : Kept (next s i)) :
    NoLoss s i := by
  intro d hDone
  obtain ⟨hError, hLatch⟩ := h.latched_of_kept hAllowed hDone hKept
  refine ⟨hError, fun hValid => ⟨hLatch hValid, ?_⟩⟩
  exact h.handedOver_of_kept hAllowed (succeeded_eq_some.mpr ⟨hDone, hError⟩) hValid hKept

theorem latched_of_noLoss (hNoLoss : NoLoss s i) (hDone : i.done = some d) :
    d.write.id ∈ behindDma (next s i) := by
  obtain ⟨hError, hLatch⟩ := hNoLoss d hDone
  have hSucceeded : succeeded i = some d := succeeded_eq_some.mpr ⟨hDone, hError⟩
  refine mem_behindDma.mpr (Or.inl ⟨?_, by simp [next, hSucceeded]⟩)
  rw [valid_next, hSucceeded]
  cases hValid : s.her.latch.valid with
  | false => rfl
  | true => simp [(hLatch hValid).1]

theorem Inv.latch_kept (h : Inv s) (hNoLoss : NoLoss s i) (hValid : s.her.latch.valid = true) :
    s.latched ∈ behindDma (next s i) := by
  cases hReady : i.herReady with
  | true =>
    have hMem := mem_handed.mpr ⟨⟨hValid, hReady⟩, rfl⟩
    refine mem_behindDma.mpr (Or.inr (mem_handedOver.mpr (Or.inl ?_)))
    exact (List.map_append ▸ List.mem_append_right _ hMem)
  | false =>
    cases hDone : i.done with
    | none =>
      have hNone : succeeded i = none := by rw [succeeded, hDone]; rfl
      refine mem_behindDma.mpr (Or.inl ⟨?_, by simp [next, hNone]⟩)
      rw [valid_next, hNone, genReady, hReady, hValid, Bool.and_false]
      rfl
    | some d =>
      rcases ((hNoLoss d hDone).2 hValid).2 with hReady' | hMem
      · exact absurd (hReady.symm.trans hReady') (by decide)
      · exact mem_behindDma.mpr (Or.inr (h.handedOver_next hMem))

theorem Inv.kept_of_noLoss (h : Inv s) (hKept : Kept s) (hNoLoss : NoLoss s i) : Kept (next s i) := by
  intro k hk
  rcases Nat.lt_or_ge k s.next with hOld | hNew
  · rcases hKept k hOld with hMem | hMem
    · rcases inDma_cases hMem with hMem | ⟨d, hDone, rfl⟩
      · exact Or.inl (inDma_next ▸ List.mem_append_left _ hMem)
      · exact Or.inr (latched_of_noLoss hNoLoss hDone)
    · rcases mem_behindDma.mp hMem with ⟨hValid, rfl⟩ | hMem
      · exact Or.inr (h.latch_kept hNoLoss hValid)
      · exact Or.inr (mem_behindDma.mpr (Or.inr (h.handedOver_next hMem)))
  · cases enter_cases s i with
    | idle hEntered hNext => omega
    | enter desc hEntered hNext hClass hFilled =>
      have hEq : k = s.next := by omega
      refine Or.inl ?_
      rw [inDma_next, hEntered, hEq]
      exact List.mem_append_right _ (List.mem_singleton_self _)

end Loss

/-- At each point of a run every slot that was taken is in the DMA engine, in the latch, with PsPIN or back
in a free FIFO, if and only if all writes end without error and no completion is dropped by the latch. -/
theorem slots_kept_iff (as : List (Input p)) :
    (∀ made, made <+: as → ∀ s, run step (init p) made = some s → Kept s) ↔
      Along step NoLoss (init p) as := by
  have hStep : ∀ (s : State p) i s', Inv s → Kept s → step s i = some s' →
      Inv s' ∧ (Kept s' ↔ NoLoss s i) := by
    intro s i s' hInv hKept hNext
    unfold step at hNext
    split at hNext
    · next hAllowed =>
      cases hNext
      refine ⟨⟨hInv.numbered.step hAllowed, hInv.served.step hAllowed⟩, ?_, hInv.kept_of_noLoss hKept⟩
      exact hInv.numbered.noLoss_of_kept hAllowed
    · exact nomatch hNext
  exact along_iff hStep ⟨numbered_init, served_init⟩ (fun _ hk => nomatch hk) as

section FailedWrite

/-- All contexts are enabled and everything is ready; a packet may arrive and a write may end. -/
def readyCycle (pktValid : Bool) (done : Option (Done (PktAlloc.smallParams true))) :
    Input (PktAlloc.smallParams true) :=
  ⟨0, (64 : BitVec 11), pktValid, true, done, true, ⟨true, fun _ => zeroMeta, fun _ => true⟩, none⟩

def onlyWrite : Write (PktAlloc.smallParams true) := ⟨0, ⟨(0x1c100800 : BitVec 32), (64 : BitVec 11), 0⟩⟩

/-- The write of a packet of 64 bytes ends with DMA_ERROR_AXI_WR_SLVERR, and its slot is nowhere. -/
theorem failed_write_leaks :
    ¬ ∀ as s, run step (init (PktAlloc.smallParams true)) as = some s → Kept s := by
  intro h
  have hEnd : ((run step (init (PktAlloc.smallParams true))
      (List.replicate 4 (readyCycle false none) ++
        [readyCycle true none, readyCycle false (some ⟨onlyWrite, (64 : BitVec 11), 6⟩)])).any
      fun s => s.next == 1 && inDma s == [] && behindDma s == []) = true := by decide +kernel
  obtain ⟨s, hRun, hPlaces⟩ := (Option.any_eq_true _ _).mp hEnd
  simp only [Bool.and_eq_true, beq_iff_eq] at hPlaces
  obtain ⟨⟨hNext, hDma⟩, hBehind⟩ := hPlaces
  rcases h _ s hRun 0 (by omega) with hMem | hMem
  · exact nomatch hDma ▸ hMem
  · exact nomatch hBehind ▸ hMem

end FailedWrite

end FPsPIN.SlotConservation
