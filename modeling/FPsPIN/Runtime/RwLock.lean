import Mathlib.Algebra.GroupWithZero.Nat
import Mathlib.Algebra.Order.BigOperators.Group.Finset
import FPsPIN.Lib.Trace

/-!
# The reader/writer lock of the handlers

spin_rw_lock_r_lock counts the reader first and takes glock only if it is the
first. While that first reader still waits, a second one sees a count of two and
returns at once, whoever has glock: it can read next to a writer. Without such a
second reader the lock excludes, for any number of HPUs and every interleaving.
Writers exclude each other in any case.
-/

namespace FPsPIN.RwLock

/-- A call that has an operation on glock left. -/
inductive Call where
  | rLock
  | rUnlock
  | wLock
deriving DecidableEq

/-- An HPU with the locks that it holds. -/
structure Hpu where
  reads : Nat
  writes : Nat
  call : Option Call

/-- The lock, with the HPUs that use it. -/
structure State (n : Nat) where
  glock : BitVec 32
  numReaders : BitVec 32
  hpu : Fin n → Hpu

variable {n : Nat}

def start (n : Nat) : State n := ⟨0, 0, fun _ => ⟨0, 0, none⟩⟩

/-- The atomic operations: those on num_readers and those on glock. The call w_lock has no operation
before its first attempt. -/
inductive Op where
  | rLock
  | rUnlock
  | wLock
  | wUnlock
  | glock

def State.set (s : State n) (t : Fin n) (h : Hpu) : State n := { s with hpu := Function.update s.hpu t h }

/-- One round of futex_lock_s: amo_or returns zero to the one that gets the lock. -/
def futexLock (s : State n) (t : Fin n) (locked : Hpu) : State n :=
  let s' := { s with glock := s.glock ||| 1 }
  if s.glock = 0 then s'.set t locked else s'

def futexUnlock (s : State n) : State n := { s with glock := 0 }

def spinRwLockRLock (s : State n) (t : Fin n) : State n :=
  let numReaders := s.numReaders + 1
  let s' := { s with numReaders := s.numReaders + 1 }
  if numReaders = 1 then s'.set t { s.hpu t with call := some .rLock }
  else s'.set t { s.hpu t with reads := (s.hpu t).reads + 1 }

def spinRwLockRUnlock (s : State n) (t : Fin n) : State n :=
  let numReaders := s.numReaders - 1
  let s' := { s with numReaders := s.numReaders - 1 }
  let h := { s.hpu t with reads := (s.hpu t).reads - 1 }
  if numReaders = 0 then s'.set t { h with call := some .rUnlock } else s'.set t h

/-- An HPU makes one call after the other and releases what it has locked. -/
def step (s : State n) (a : Fin n × Op) : Option (State n) :=
  let h := s.hpu a.1
  match a.2, h.call with
  | .rLock, none => some (spinRwLockRLock s a.1)
  | .rUnlock, none => if h.reads = 0 then none else some (spinRwLockRUnlock s a.1)
  | .wLock, none => some (s.set a.1 { h with call := some .wLock })
  | .wUnlock, none =>
    if h.writes = 0 then none else some ((futexUnlock s).set a.1 { h with writes := h.writes - 1 })
  | .glock, some .rLock => some (futexLock s a.1 { h with reads := h.reads + 1, call := none })
  | .glock, some .wLock => some (futexLock s a.1 { h with writes := h.writes + 1, call := none })
  | .glock, some .rUnlock => some ((futexUnlock s).set a.1 { h with call := none })
  | _, _ => none

/-- No reader next to a writer and one writer at most. -/
def Exclusive (s : State n) : Prop :=
  (∀ t t', (s.hpu t).reads ≠ 0 → (s.hpu t').writes = 0) ∧
    ∀ t t', (s.hpu t).writes ≠ 0 → (s.hpu t').writes ≠ 0 → t = t'

/-- A reader does not take the count around to zero, and in an orderly run it does not come while
another one waits for glock. -/
def Admits (orderly : Prop) (s : State n) : Fin n × Op → Prop
  | (_, .rLock) => s.numReaders ≠ -1 ∧ (orderly → ∀ t, (s.hpu t).call ≠ some .rLock)
  | _ => True

section Totals

def Hpu.waits (h : Hpu) : Nat := if h.call = some .rLock then 1 else 0

def Hpu.clears (h : Hpu) : Nat := if h.call = some .rUnlock then 1 else 0

def State.total (s : State n) (f : Hpu → Nat) : Nat := ∑ t, f (s.hpu t)

theorem total_set (s : State n) (f : Hpu → Nat) (t : Fin n) (h : Hpu) :
    (s.set t h).total f + f (s.hpu t) = s.total f + f h := by
  have hRest : ∑ t' ∈ Finset.univ.erase t, f (Function.update s.hpu t h t') =
      ∑ t' ∈ Finset.univ.erase t, f (s.hpu t') := by
    refine Finset.sum_congr rfl fun t' hMem => ?_
    rw [Function.update_of_ne (Finset.ne_of_mem_erase hMem)]
  have hOld := Finset.add_sum_erase Finset.univ (fun t => f (s.hpu t)) (Finset.mem_univ t)
  have hNew := Finset.add_sum_erase Finset.univ (fun t' => f (Function.update s.hpu t h t')) (Finset.mem_univ t)
  rw [Function.update_self, hRest] at hNew
  simp only [State.total, State.set]
  omega

theorem le_total (s : State n) (f : Hpu → Nat) (t : Fin n) : f (s.hpu t) ≤ s.total f :=
  Finset.single_le_sum (f := fun t => f (s.hpu t)) (fun _ _ => Nat.zero_le _) (Finset.mem_univ t)

theorem add_le_total (s : State n) (f : Hpu → Nat) {t t' : Fin n} (hNe : t ≠ t') :
    f (s.hpu t) + f (s.hpu t') ≤ s.total f := by
  have hSplit := Finset.add_sum_erase Finset.univ (fun t => f (s.hpu t)) (Finset.mem_univ t)
  have hOther := Finset.single_le_sum (f := fun t => f (s.hpu t)) (fun _ _ => Nat.zero_le _)
    (Finset.mem_erase.mpr ⟨hNe.symm, Finset.mem_univ t'⟩)
  simp only [State.total]
  omega

end Totals

/-- The values of num_readers and glock against the totals. glock is held by a writer, by a reader that
is about to release it, or by the readers together; these do not have it while the first of them waits. -/
structure Balanced (orderly : Prop) (numReaders glock reads waits writes clears : Nat) : Prop where
  readers : numReaders = reads + waits
  waiting : waits ≤ 1
  held : glock = writes + clears + (min 1 reads - waits)
  once : glock ≤ 1
  first : orderly → waits = 0 ∨ reads = 0

def Inv (orderly : Prop) (s : State n) : Prop :=
  Balanced orderly s.numReaders.toNat s.glock.toNat (s.total Hpu.reads) (s.total Hpu.waits) (s.total Hpu.writes)
    (s.total Hpu.clears)

variable {orderly : Prop}

theorem inv_start : Inv orderly (start n) := by
  have hZero : ∀ f : Hpu → Nat, f ⟨0, 0, none⟩ = 0 → (start n).total f = 0 :=
    fun f hf => Finset.sum_eq_zero fun t _ => hf
  rw [Inv, hZero _ rfl, hZero _ rfl, hZero _ rfl, hZero _ rfl]
  exact ⟨rfl, Nat.zero_le 1, rfl, Nat.zero_le 1, fun _ => .inl rfl⟩

section Steps

variable {s : State n} {t : Fin n}

theorem inv_set {h : Hpu} {glock numReaders : BitVec 32}
    (hBalanced : ∀ reads waits writes clears,
      reads + (s.hpu t).reads = s.total Hpu.reads + h.reads →
      waits + (s.hpu t).waits = s.total Hpu.waits + h.waits →
      writes + (s.hpu t).writes = s.total Hpu.writes + h.writes →
      clears + (s.hpu t).clears = s.total Hpu.clears + h.clears →
      Balanced orderly numReaders.toNat glock.toNat reads waits writes clears) :
    Inv orderly ((⟨glock, numReaders, s.hpu⟩ : State n).set t h) := by
  have hTotal := fun f => total_set ⟨glock, numReaders, s.hpu⟩ f t h
  exact hBalanced _ _ _ _ (hTotal _) (hTotal _) (hTotal _) (hTotal _)

theorem total_waits_eq_zero (hNone : ∀ t, (s.hpu t).call ≠ some .rLock) : s.total Hpu.waits = 0 :=
  Finset.sum_eq_zero fun t _ => if_neg (hNone t)

theorem inv_rLock (hInv : Inv orderly s) (hCall : (s.hpu t).call = none)
    (hCounts : s.numReaders ≠ -1) (hAdmits : orderly → ∀ t, (s.hpu t).call ≠ some .rLock) :
    Inv orderly (spinRwLockRLock s t) := by
  obtain ⟨hReaders, hWaiting, hHeld, hOnce, hFirst⟩ := hInv
  have hNext : (s.numReaders + 1).toNat = s.numReaders.toNat + 1 := by
    have hNe : s.numReaders.toNat ≠ 2 ^ 32 - 1 := fun hEq => hCounts (BitVec.eq_of_toNat_eq hEq)
    have hLt := s.numReaders.isLt
    rw [BitVec.toNat_add]
    exact Nat.mod_eq_of_lt (by change _ + 1 < _; omega)
  by_cases hNew : s.numReaders + 1 = 1
  · have hOne : (s.numReaders + 1).toNat = 1 := congrArg BitVec.toNat hNew
    rw [spinRwLockRLock, if_pos hNew]
    refine inv_set fun reads waits writes clears hReads hWaits hWrites hClears => ?_
    simp only [Hpu.waits, Hpu.clears, hCall, reduceCtorEq, if_true, if_false, Option.some.injEq]
      at hReads hWaits hWrites hClears
    refine ⟨by omega, by omega, by omega, by omega, fun hOrderly => ?_⟩
    have hAlone := hFirst hOrderly
    omega
  · have hMore : (s.numReaders + 1).toNat ≠ 1 := fun hEq => hNew (BitVec.eq_of_toNat_eq hEq)
    rw [spinRwLockRLock, if_neg hNew]
    refine inv_set fun reads waits writes clears hReads hWaits hWrites hClears => ?_
    simp only [Hpu.waits, Hpu.clears, hCall, reduceCtorEq, if_false] at hReads hWaits hWrites hClears
    refine ⟨by omega, by omega, by omega, by omega, fun hOrderly => ?_⟩
    have hNone := total_waits_eq_zero (hAdmits hOrderly)
    omega

theorem inv_rUnlock (hInv : Inv orderly s) (hCall : (s.hpu t).call = none) (hReading : (s.hpu t).reads ≠ 0) :
    Inv orderly (spinRwLockRUnlock s t) := by
  obtain ⟨hReaders, hWaiting, hHeld, hOnce, hFirst⟩ := hInv
  have hSome := le_total s Hpu.reads t
  have hNext : (s.numReaders - 1).toNat = s.numReaders.toNat - 1 :=
    BitVec.toNat_sub_of_le (BitVec.le_def.mpr (by change 1 ≤ _; omega))
  by_cases hLast : s.numReaders - 1 = 0
  · have hZero : (s.numReaders - 1).toNat = 0 := congrArg BitVec.toNat hLast
    rw [spinRwLockRUnlock, if_pos hLast]
    refine inv_set fun reads waits writes clears hReads hWaits hWrites hClears => ?_
    simp only [Hpu.waits, Hpu.clears, hCall, reduceCtorEq, if_true, if_false, Option.some.injEq]
      at hReads hWaits hWrites hClears
    refine ⟨by omega, by omega, by omega, by omega, fun hOrderly => ?_⟩
    have hAlone := hFirst hOrderly
    omega
  · have hMore : (s.numReaders - 1).toNat ≠ 0 := fun hEq => hLast (BitVec.eq_of_toNat_eq hEq)
    rw [spinRwLockRUnlock, if_neg hLast]
    refine inv_set fun reads waits writes clears hReads hWaits hWrites hClears => ?_
    simp only [Hpu.waits, Hpu.clears, hCall, reduceCtorEq, if_false] at hReads hWaits hWrites hClears
    refine ⟨by omega, by omega, by omega, by omega, fun hOrderly => ?_⟩
    have hAlone := hFirst hOrderly
    omega

theorem inv_futexUnlock (hInv : Inv orderly s) {h : Hpu} (hReads : h.reads = (s.hpu t).reads)
    (hWaits : h.waits = (s.hpu t).waits)
    (hRelease : h.writes + h.clears + 1 = (s.hpu t).writes + (s.hpu t).clears) :
    Inv orderly ((futexUnlock s).set t h) := by
  obtain ⟨hReaders, hWaiting, hHeld, hOnce, hFirst⟩ := hInv
  have hWrites := le_total s Hpu.writes t
  have hClears := le_total s Hpu.clears t
  refine inv_set fun reads waits writes clears _ _ _ _ => ?_
  have hZero : (0 : BitVec 32).toNat = 0 := rfl
  refine ⟨by omega, by omega, by omega, by omega, fun hOrderly => ?_⟩
  have hAlone := hFirst hOrderly
  omega

theorem inv_futexLock (hInv : Inv orderly s) {h : Hpu}
    (hBalanced : s.glock.toNat = 0 → Inv orderly ((⟨1, s.numReaders, s.hpu⟩ : State n).set t h)) :
    Inv orderly (futexLock s t h) := by
  unfold futexLock
  by_cases hFree : s.glock = 0
  · rw [if_pos hFree]
    have hOne : s.glock ||| 1 = 1 := by rw [hFree]; rfl
    rw [hOne]
    exact hBalanced (congrArg BitVec.toNat hFree)
  · rw [if_neg hFree]
    have hOne : s.glock = 1 := by
      have hNe : s.glock.toNat ≠ 0 := fun hEq => hFree (BitVec.eq_of_toNat_eq hEq)
      have hOnce := hInv.once
      exact BitVec.eq_of_toNat_eq (by change _ = 1; omega)
    have hSame : s.glock ||| 1 = s.glock := by rw [hOne]; rfl
    rw [hSame]
    exact hInv

theorem inv_wLock (hInv : Inv orderly s) (hCall : (s.hpu t).call = none) :
    Inv orderly (s.set t { s.hpu t with call := some .wLock }) := by
  obtain ⟨hReaders, hWaiting, hHeld, hOnce, hFirst⟩ := hInv
  refine inv_set fun reads waits writes clears hReads hWaits hWrites hClears => ?_
  simp only [Hpu.waits, Hpu.clears, hCall, reduceCtorEq, if_false, Option.some.injEq]
    at hReads hWaits hWrites hClears
  refine ⟨by omega, by omega, by omega, by omega, fun hOrderly => ?_⟩
  have hAlone := hFirst hOrderly
  omega

theorem inv_glock (hInv : Inv orderly s) {s' : State n} (hNext : step s (t, .glock) = some s') :
    Inv orderly s' := by
  obtain ⟨hReaders, hWaiting, hHeld, hOnce, hFirst⟩ := id hInv
  have hZero : (1 : BitVec 32).toNat = 1 := rfl
  cases hCall : (s.hpu t).call with
  | none => simp [step, hCall] at hNext
  | some call =>
    cases call with
    | rLock =>
      simp only [step, hCall, Option.some.injEq] at hNext
      rw [← hNext]
      -- the first reader gets the lock for all of them
      refine inv_futexLock hInv fun hFree =>
        inv_set fun reads waits writes clears hReads hWaits hWrites hClears => ?_
      simp only [Hpu.waits, Hpu.clears, hCall, reduceCtorEq, if_true, if_false, Option.some.injEq]
        at hReads hWaits hWrites hClears
      refine ⟨by omega, by omega, by omega, by omega, fun hOrderly => ?_⟩
      have hAlone := hFirst hOrderly
      omega
    | wLock =>
      simp only [step, hCall, Option.some.injEq] at hNext
      rw [← hNext]
      refine inv_futexLock hInv fun hFree =>
        inv_set fun reads waits writes clears hReads hWaits hWrites hClears => ?_
      simp only [Hpu.waits, Hpu.clears, hCall, reduceCtorEq, if_false, Option.some.injEq]
        at hReads hWaits hWrites hClears
      refine ⟨by omega, by omega, by omega, by omega, fun hOrderly => ?_⟩
      have hAlone := hFirst hOrderly
      omega
    | rUnlock =>
      simp only [step, hCall, Option.some.injEq] at hNext
      rw [← hNext]
      refine inv_futexUnlock hInv rfl ?_ ?_
      · simp [Hpu.waits, hCall]
      · simp [Hpu.clears, hCall]

theorem inv_step {a : Fin n × Op} {s' : State n} (hInv : Inv orderly s) (hAdmits : Admits orderly s a)
    (hNext : step s a = some s') :
    Inv orderly s' := by
  obtain ⟨t, op⟩ := a
  by_cases hOp : op = .glock
  · rw [hOp] at hNext
    exact inv_glock hInv hNext
  · have hCall : (s.hpu t).call = none := by
      by_contra hBusy
      obtain ⟨call, hSome⟩ := Option.ne_none_iff_exists'.mp hBusy
      cases op <;> simp_all [step]
    cases op with
    | rLock =>
      simp only [step, hCall, Option.some.injEq] at hNext
      rw [← hNext]
      exact inv_rLock hInv hCall hAdmits.1 hAdmits.2
    | rUnlock =>
      simp only [step, hCall, Option.ite_none_left_eq_some, Option.some.injEq] at hNext
      rw [← hNext.2]
      exact inv_rUnlock hInv hCall hNext.1
    | wLock =>
      simp only [step, hCall, Option.some.injEq] at hNext
      rw [← hNext]
      exact inv_wLock hInv hCall
    | wUnlock =>
      simp only [step, hCall, Option.ite_none_left_eq_some, Option.some.injEq] at hNext
      rw [← hNext.2]
      refine inv_futexUnlock hInv rfl ?_ ?_
      · simp [Hpu.waits, hCall]
      · simp only [Hpu.clears, hCall]
        have := hNext.1
        omega
    | glock => exact absurd rfl hOp

theorem eq_of_writing (hInv : Inv orderly s) {t t' : Fin n} (hWriting : (s.hpu t).writes ≠ 0)
    (hWriting' : (s.hpu t').writes ≠ 0) : t = t' := by
  obtain ⟨_, _, hHeld, hOnce, _⟩ := hInv
  by_contra hNe
  have hBoth := add_le_total s Hpu.writes hNe
  omega

theorem exclusive_of_inv (hInv : Inv True s) : Exclusive s := by
  refine ⟨fun t t' hReading => ?_, fun t t' => eq_of_writing hInv⟩
  obtain ⟨_, _, hHeld, hOnce, hFirst⟩ := hInv
  have hAlone := hFirst trivial
  have hReads := le_total s Hpu.reads t
  have hWrites := le_total s Hpu.writes t'
  omega

end Steps

section Runs

theorem inv_run {as : List (Fin n × Op)} {s : State n} (hAlong : Trace.Along step (Admits orderly) (start n) as)
    (hRun : Trace.run step (start n) as = some s) : Inv orderly s :=
  Trace.along_invariant (Inv orderly)
    (fun _ _ _ hInv hAdmits hNext => inv_step hInv hAdmits hNext) inv_start hAlong hRun

theorem rwLock_exclusive {as : List (Fin n × Op)} {s : State n}
    (hAlong : Trace.Along step (Admits True) (start n) as) (hRun : Trace.run step (start n) as = some s) :
    Exclusive s :=
  exclusive_of_inv (inv_run hAlong hRun)

/-- Whatever the readers do. -/
theorem one_writer {as : List (Fin n × Op)} {s : State n} (hAlong : Trace.Along step (Admits False) (start n) as)
    (hRun : Trace.run step (start n) as = some s) {t t' : Fin n} (hWriting : (s.hpu t).writes ≠ 0)
    (hWriting' : (s.hpu t').writes ≠ 0) : t = t' :=
  eq_of_writing (inv_run hAlong hRun) hWriting hWriting'

instance Admits.decidable [Decidable orderly] (s : State n) : ∀ a, Decidable (Admits orderly s a)
  | (_, .rLock) => inferInstanceAs (Decidable (_ ∧ _))
  | (_, .rUnlock) | (_, .wLock) | (_, .wUnlock) | (_, .glock) => inferInstanceAs (Decidable True)

def readersFirst : List (Fin 3 × Op) :=
  [(0, .rLock), (0, .glock), (1, .rLock), (2, .wLock), (2, .glock), (0, .rUnlock), (1, .rUnlock), (1, .glock),
    (2, .glock)]

theorem rwLock_exclusive_readersFirst :
    ∃ s, Trace.run step (start 3) readersFirst = some s ∧ (s.hpu 2).writes = 1 ∧ Exclusive s := by
  have hWrites : (Trace.run step (start 3) readersFirst).map (fun s => (s.hpu 2).writes) = some 1 := by
    decide +kernel
  obtain ⟨s, hRun, hWriting⟩ := Option.map_eq_some_iff.mp hWrites
  exact ⟨s, hRun, hWriting, rwLock_exclusive (by decide +kernel) hRun⟩

/-- HPU 0 writes, HPU 1 waits as the first reader, and HPU 2 reads. -/
theorem reader_beside_writer :
    ∃ s, Trace.run step (start 3) [(0, .wLock), (0, .glock), (1, .rLock), (2, .rLock)] = some s ∧
      ¬ Exclusive s := by
  have hLocks : (Trace.run step (start 3) [(0, .wLock), (0, .glock), (1, .rLock), (2, .rLock)]).map
      (fun s => ((s.hpu 2).reads, (s.hpu 0).writes)) = some (1, 1) := by decide +kernel
  obtain ⟨s, hRun, hPair⟩ := Option.map_eq_some_iff.mp hLocks
  obtain ⟨hReads, hWrites⟩ := Prod.mk.inj hPair
  refine ⟨s, hRun, fun hExclusive => ?_⟩
  have hZero := hExclusive.1 2 0 (by rw [hReads]; exact Nat.one_ne_zero)
  rw [hWrites] at hZero
  cases hZero

end Runs

end FPsPIN.RwLock
