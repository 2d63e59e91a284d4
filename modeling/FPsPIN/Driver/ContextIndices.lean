import FPsPIN.Driver.FileCalls
import FPsPIN.Driver.Mappings

/-!
# Indices into the host DMA areas

User space names an area by a context number, in the query ioctl directly and
in mmap as page offset divided by page count. Both are ints when they are
compared with the number of contexts, and only from above. A negative number
passes. The page count is narrowed to an int before the division, so a count
with 32 zeros at its end divides by zero.

The number that mmap found is kept with the mapping, and the callbacks for its
duplicates and for its end index with it again.
-/

namespace FPsPIN.Driver

open FPsPIN.HerGen FPsPIN.Trace

inductive CallEnd where
  | divideError
  | error (e : CallErrno)
  | ok
deriving DecidableEq

structure IndexOutcome where
  result : CallEnd
  indexed : List Int
deriving DecidableEq

def queryOutcome (f : File) (msg : IoctlMsg) : IndexOutcome :=
  let o := pspinIoctl (fun _ => 0) f .hostdmaQuery msg
  match o.retval with
  | .error e => ⟨.error e, o.indexed⟩
  | .ok () => ⟨.ok, o.indexed⟩

def MmapEnd.callEnd : MmapEnd → CallEnd
  | .enomem => .error .enomem
  | .eagain => .error .eagain
  | .eio => .error .eio
  | .ok => .ok

/-- Function pspin_mmap, with what it finds at the index. Before it returns zero it calls pspin_vma_open. -/
def mmapOutcome (area : DmaArea) (req : MmapRequest) : IndexOutcome :=
  match req.check with
  | .divideError => ⟨.divideError, []⟩
  | .einval => ⟨.error (.common .einval), []⟩
  | .context ctxId =>
    ⟨(req.onArea area).1.callEnd, if (req.onArea area).1 = .ok then [ctxId, ctxId] else [ctxId]⟩

inductive IndexCall where
  | query (f : File) (msg : IoctlMsg)
  | mmap (vma : Nat) (req : MmapRequest) (area : DmaArea)
  | vmaOpen (vma copy : Nat)
  | vmaClose (vma : Nat)

/-- The context numbers in the private data of the mappings, and what the calls so far did. -/
structure IndexState where
  vmPrivateData : Nat → Option Int
  outcomes : List IndexOutcome

def IndexState.start : IndexState := ⟨fun _ => none, []⟩

/-- The kernel calls pspin_mmap for at least one page; a copy of a mapping gets its private data. -/
def IndexState.step (s : IndexState) : IndexCall → Option IndexState
  | .query f msg => some { s with outcomes := s.outcomes ++ [queryOutcome f msg] }
  | .mmap vma req area =>
    if req.len.toNat < 4096 ∨ s.vmPrivateData vma ≠ none then none
    else some
      { vmPrivateData :=
          if (mmapOutcome area req).result = .ok then Function.update s.vmPrivateData vma (some req.ctxId)
          else s.vmPrivateData
        outcomes := s.outcomes ++ [mmapOutcome area req] }
  | .vmaOpen vma copy =>
    if s.vmPrivateData copy ≠ none then none
    else (s.vmPrivateData vma).map fun ctxId =>
      { vmPrivateData := Function.update s.vmPrivateData copy (some ctxId)
        outcomes := s.outcomes ++ [⟨.ok, [ctxId]⟩] }
  | .vmaClose vma =>
    (s.vmPrivateData vma).map fun ctxId =>
      { vmPrivateData := Function.update s.vmPrivateData vma none
        outcomes := s.outcomes ++ [⟨.ok, [ctxId]⟩] }

/-- All indices are those of contexts, and without one the call returned an error. -/
structure InRange (o : IndexOutcome) : Prop where
  indexed : ∀ i ∈ o.indexed, 0 ≤ i ∧ i < 4
  rejected : o.indexed = [] → ∃ e, o.result = .error e

/-- The context number of the call is not negative where it is used, and mmap can divide. -/
def ContextSafe : IndexCall → Prop
  | .query f msg => f.type = .tyMem → msg.requestFault = false → 0 ≤ msg.ctxId.toInt
  | .mmap _ req _ => req.numPagesRequested ≠ 0 ∧ (req.shared = true → 0 ≤ req.ctxId)
  | .vmaOpen .. => True
  | .vmaClose _ => True

section Calls

theorem inRange_error (e : CallErrno) : InRange ⟨.error e, []⟩ := by
  constructor
  · rintro i ⟨⟩
  · exact fun _ => ⟨e, rfl⟩

theorem inRange_indexed {result : CallEnd} {ctxId : Int} {indexed : List Int} (hAll : ∀ i ∈ indexed, i = ctxId)
    (hUsed : ctxId ∈ indexed) : InRange ⟨result, indexed⟩ ↔ 0 ≤ ctxId ∧ ctxId < 4 := by
  constructor
  · exact fun h => h.indexed ctxId hUsed
  · intro hContext
    refine ⟨?_, ?_⟩
    · intro i hi
      rw [hAll i hi]
      exact hContext
    · rintro rfl
      exact nomatch hUsed

theorem inRange_one (result : CallEnd) (ctxId : Int) : InRange ⟨result, [ctxId]⟩ ↔ 0 ≤ ctxId ∧ ctxId < 4 :=
  inRange_indexed (fun _ hi => List.mem_singleton.mp hi) List.mem_cons_self

theorem queryOutcome_eq (f : File) (msg : IoctlMsg) :
    queryOutcome f msg =
      if f.type = .tyFifo then ⟨.error .enotty, []⟩
      else if msg.requestFault then ⟨.error (.common .efault), []⟩
      else if 4 ≤ msg.ctxId.toInt then ⟨.error (.common .einval), []⟩
      else ⟨if msg.responseFault then .error (.common .efault) else .ok, [msg.ctxId.toInt]⟩ := by
  rw [queryOutcome]
  unfold pspinIoctl
  split_ifs <;> rfl

theorem inRange_query (f : File) (msg : IoctlMsg) :
    InRange (queryOutcome f msg) ↔ (f.type = .tyMem → msg.requestFault = false → 0 ≤ msg.ctxId.toInt) := by
  rw [queryOutcome_eq]
  split
  · rename_i hType
    refine iff_of_true (inRange_error _) fun hMem => ?_
    exact absurd (hMem.symm.trans hType) (by decide)
  · rename_i hType
    split
    · rename_i hFault
      exact iff_of_true (inRange_error _) fun _ hServed => absurd (hFault.symm.trans hServed) (by decide)
    · rename_i hServed
      have hUsed : (f.type = .tyMem → msg.requestFault = false → 0 ≤ msg.ctxId.toInt) ↔ 0 ≤ msg.ctxId.toInt :=
        ⟨fun h => h (tyMem_of_ne hType) (eq_false_of_ne_true hServed), fun h _ _ => h⟩
      rw [hUsed]
      split
      · rename_i hLarge
        exact iff_of_true (inRange_error _) (by omega)
      · rename_i hSmall
        rw [inRange_one]
        omega

theorem inRange_mmap (area : DmaArea) (req : MmapRequest) :
    InRange (mmapOutcome area req) ↔
      req.numPagesRequested ≠ 0 ∧ (req.shared = true → 0 ≤ req.ctxId) := by
  rw [mmapOutcome]
  obtain ⟨hCheck, hZero⟩ | ⟨hCheck, hPages, hLarge⟩ | ⟨hCheck, hPages, hShared, hSmall⟩ := req.check_cases
  · rw [hCheck]
    refine iff_of_false ?_ (fun h => h.1 hZero)
    intro hRange
    obtain ⟨e, hError⟩ := hRange.rejected rfl
    cases hError
  · rw [hCheck]
    refine iff_of_true (inRange_error _) ⟨hPages, fun hShared => ?_⟩
    have hLarge := hLarge hShared
    omega
  · rw [hCheck, and_iff_right hPages]
    have hContext : 0 ≤ req.ctxId ∧ req.ctxId < 4 ↔ (req.shared = true → 0 ≤ req.ctxId) :=
      ⟨fun h _ => h.1, fun h => ⟨h hShared, hSmall⟩⟩
    rw [← hContext]
    apply inRange_indexed
    · split <;> simp
    · split <;> simp

/-- The model of pspin_mmap on the areas has a result exactly where the index is one. -/
theorem pspinMmap_isSome_iff (d : Device) (req : MmapRequest) (area : DmaArea) :
    (pspinMmap d req).isSome = true ↔ InRange (mmapOutcome area req) := by
  rw [inRange_mmap, pspinMmap]
  obtain ⟨hCheck, hZero⟩ | ⟨hCheck, hPages, hLarge⟩ | ⟨hCheck, hPages, hShared, hSmall⟩ := req.check_cases
  · rw [hCheck]
    exact iff_of_false Bool.false_ne_true (fun h => h.1 hZero)
  · rw [hCheck]
    refine iff_of_true rfl ⟨hPages, fun hShared => ?_⟩
    have hLarge := hLarge hShared
    omega
  · rw [hCheck]
    change ((areaIndex req.ctxId).map _).isSome = true ↔ _
    rw [Option.isSome_map, areaIndex_of_lt hSmall]
    exact ⟨fun h => ⟨hPages, fun _ => h⟩, fun h => h.2 hShared⟩

def PrivateUsed (s : IndexState) : Prop :=
  ∀ vma ctxId, s.vmPrivateData vma = some ctxId → ∃ o ∈ s.outcomes, ctxId ∈ o.indexed

theorem privateUsed_append {vmPrivateData : Nat → Option Int} {outcomes : List IndexOutcome} {o : IndexOutcome}
    (hUsed : PrivateUsed ⟨vmPrivateData, outcomes⟩) : PrivateUsed ⟨vmPrivateData, outcomes ++ [o]⟩ := by
  intro vma ctxId hSome
  obtain ⟨o', hMem, hIndexed⟩ := hUsed vma ctxId hSome
  exact ⟨o', List.mem_append_left _ hMem, hIndexed⟩

theorem privateUsed_update {vmPrivateData : Nat → Option Int} {outcomes : List IndexOutcome} {o : IndexOutcome}
    (hUsed : PrivateUsed ⟨vmPrivateData, outcomes⟩) (vma : Nat) {new : Option Int}
    (hNew : ∀ ctxId, new = some ctxId → ctxId ∈ o.indexed) :
    PrivateUsed ⟨Function.update vmPrivateData vma new, outcomes ++ [o]⟩ := by
  intro other ctxId hSome
  change Function.update vmPrivateData vma new other = some ctxId at hSome
  rcases eq_or_ne other vma with rfl | hOther
  · rw [Function.update_self] at hSome
    exact ⟨o, List.mem_append_right _ List.mem_cons_self, hNew ctxId hSome⟩
  · rw [Function.update_of_ne hOther] at hSome
    exact privateUsed_append hUsed other ctxId hSome

theorem outcomes_iff {outcomes : List IndexOutcome} {o : IndexOutcome} (hGood : ∀ o ∈ outcomes, InRange o) :
    (∀ o' ∈ outcomes ++ [o], InRange o') ↔ InRange o := by
  rw [List.forall_mem_append, List.forall_mem_singleton]
  exact and_iff_right hGood

theorem inRange_private {s : IndexState} (hUsed : PrivateUsed s) (hGood : ∀ o ∈ s.outcomes, InRange o)
    {vma : Nat} {ctxId : Int} (hSome : s.vmPrivateData vma = some ctxId) : InRange ⟨.ok, [ctxId]⟩ := by
  obtain ⟨o, hMem, hIndexed⟩ := hUsed vma ctxId hSome
  exact (inRange_one _ _).mpr ((hGood o hMem).indexed ctxId hIndexed)

theorem mem_indexed_of_ok {area : DmaArea} {req : MmapRequest} (h : (mmapOutcome area req).result = .ok) :
    req.ctxId ∈ (mmapOutcome area req).indexed := by
  rw [mmapOutcome] at h ⊢
  obtain ⟨hCheck, -⟩ | ⟨hCheck, -⟩ | ⟨hCheck, -⟩ := req.check_cases
  · rw [hCheck] at h
    cases h
  · rw [hCheck] at h
    cases h
  · rw [hCheck]
    change req.ctxId ∈ if (req.onArea area).1 = .ok then [req.ctxId, req.ctxId] else [req.ctxId]
    split <;> exact List.mem_cons_self

theorem step_inRange {s s' : IndexState} {call : IndexCall} (hUsed : PrivateUsed s)
    (hGood : ∀ o ∈ s.outcomes, InRange o) (hNext : s.step call = some s') :
    PrivateUsed s' ∧ ((∀ o ∈ s'.outcomes, InRange o) ↔ ContextSafe call) := by
  cases call with
  | query f msg =>
    cases hNext
    refine ⟨privateUsed_append hUsed, ?_⟩
    rw [outcomes_iff hGood]
    exact inRange_query f msg
  | mmap vma req area =>
    rw [IndexState.step] at hNext
    split at hNext
    · cases hNext
    · cases hNext
      refine ⟨?_, (outcomes_iff hGood).trans (inRange_mmap area req)⟩
      split
      · rename_i hOk
        apply privateUsed_update hUsed
        rintro ctxId ⟨rfl⟩
        exact mem_indexed_of_ok hOk
      · exact privateUsed_append hUsed
  | vmaOpen vma copy =>
    rw [IndexState.step] at hNext
    split at hNext
    · cases hNext
    · obtain ⟨ctxId, hSome, rfl⟩ := Option.map_eq_some_iff.mp hNext
      refine ⟨?_, (outcomes_iff hGood).trans (iff_of_true (inRange_private hUsed hGood hSome) trivial)⟩
      apply privateUsed_update hUsed
      rintro _ ⟨rfl⟩
      exact List.mem_cons_self
  | vmaClose vma =>
    obtain ⟨ctxId, hSome, rfl⟩ := Option.map_eq_some_iff.mp hNext
    refine ⟨?_, (outcomes_iff hGood).trans (iff_of_true (inRange_private hUsed hGood hSome) trivial)⟩
    apply privateUsed_update hUsed
    rintro _ ⟨⟩

/-- Along any calls the indices are in range exactly if no context number is negative where it counts
and no page count is a multiple of 2 ^ 32. -/
theorem context_indices_in_range (calls : List IndexCall) :
    (∀ made, made <+: calls → ∀ s, run IndexState.step IndexState.start made = some s →
        ∀ o ∈ s.outcomes, InRange o) ↔
      Along IndexState.step (fun _ call => ContextSafe call) IndexState.start calls := by
  have hStep : ∀ s call s', PrivateUsed s → (∀ o ∈ s.outcomes, InRange o) →
      IndexState.step s call = some s' →
      PrivateUsed s' ∧ ((∀ o ∈ s'.outcomes, InRange o) ↔ ContextSafe call) :=
    fun s call s' hUsed hGood hNext => step_inRange hUsed hGood hNext
  have hUsed : PrivateUsed IndexState.start := fun _ _ hSome => nomatch hSome
  have hGood : ∀ o ∈ IndexState.start.outcomes, InRange o := fun _ hMem => nomatch hMem
  exact along_iff hStep hUsed hGood calls

theorem negative_context_indexed : ¬ ∀ (calls : List IndexCall) (s : IndexState),
    run IndexState.step IndexState.start calls = some s → ∀ o ∈ s.outcomes, InRange o := by
  intro hAll
  have hRange := hAll [.query ⟨.tyMem, 0⟩ ⟨-1, 0, 0, false, false, false⟩] _ rfl _ List.mem_cons_self
  rw [inRange_query] at hRange
  exact absurd (hRange rfl rfl) (by decide)

end Calls

end FPsPIN.Driver
