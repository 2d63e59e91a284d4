import Mathlib.Algebra.Group.Basic
import Mathlib.Algebra.Order.Group.Multiset
import Mathlib.Data.Set.Lattice
import Mathlib.Order.CompletePartialOrder
import Mathlib.Order.Interval.Set.Disjoint
import Mathlib.Tactic.Abel
import FPsPIN.PktAlloc.Model

/-!
# Packet slots are never shared

The allocator together with the packets whose slots are outstanding. Free and
outstanding slots are always a rearrangement of the initial carve-up, each in
its own size class: an allocation decides on the length in whole beats and a
feedback on the length in bytes, but both fall into the same class. Whether
the carve-up lies in the buffer is another matter, since total_size is
computed in LEN_WIDTH bits.
-/

namespace FPsPIN.PktAlloc

open LatencyFifo Run

/-- A length in bytes rounded up to 64, the pkt_len_i of its packet. -/
def roundUp (len : Nat) : Nat := (len + 63) / 64 * 64

structure Slot (p : Params) where
  cls : SlotClass
  addr : BitVec p.addrWidth
deriving DecidableEq

structure Packet (p : Params) extends Slot p where
  len : Nat
  served : p.classOf len = some cls
deriving DecidableEq

variable {p : Params}

def Packet.ofLen (addr : BitVec p.addrWidth) (len : Nat) : Option (Packet p) :=
  match h : p.classOf len with
  | some c => some ⟨⟨c, addr⟩, len, h⟩
  | none => none

theorem Packet.ofLen_eq_some {addr : BitVec p.addrWidth} {len : Nat} {x : Packet p} :
    Packet.ofLen addr len = some x ↔ x.addr = addr ∧ x.len = len := by
  obtain ⟨⟨c, a⟩, n, hServed⟩ := x
  rw [Packet.ofLen]
  split
  · rename_i d hClass
    simp only [Option.some.injEq, Packet.mk.injEq, Slot.mk.injEq]
    constructor
    · rintro ⟨⟨_, rfl⟩, rfl⟩
      exact ⟨rfl, rfl⟩
    · rintro ⟨rfl, rfl⟩
      exact ⟨⟨Option.some.inj (hClass.symm.trans hServed), rfl⟩, rfl⟩
  · rename_i hNone
    constructor
    · intro h
      cases h
    · rintro ⟨rfl, rfl⟩
      rw [hNone] at hServed
      cases hServed

theorem Packet.ofLen_of_class {addr : BitVec p.addrWidth} {len : Nat} {c : SlotClass}
    (h : p.classOf len = some c) : Packet.ofLen addr len = some ⟨⟨c, addr⟩, len, h⟩ :=
  Packet.ofLen_eq_some.mpr ⟨rfl, rfl⟩

structure World (p : Params) where
  alloc : State p
  outstanding : List (Packet p)

section Step

variable (s : State p) (i : Input p)

def issued : Option (Packet p) := (writeDesc s i).bind (fun desc => Packet.ofLen desc.1 desc.2.1.toNat)

/-- The packet that a feedback returns, found by its address and its length in beats. -/
def returned : Option (Packet p) :=
  if feedbackTaken s i then Packet.ofLen i.feedbackHerAddr (roundUp i.feedbackHerSize.toNat) else none

end Step

def World.step (w : World p) (i : Input p) : World p where
  alloc := PktAlloc.step w.alloc i
  outstanding :=
    ((returned w.alloc i).elim w.outstanding w.outstanding.erase) ++ (issued w.alloc i).toList

/-- A feedback returns an outstanding slot with the length in bytes of its packet. -/
def Honest (w : World p) (i : Input p) : Prop :=
  feedbackTaken w.alloc i = true →
    ∃ x ∈ w.outstanding, x.addr = i.feedbackHerAddr ∧ x.len = roundUp i.feedbackHerSize.toNat

def worldAt (inputs : Nat → Input p) : Nat → World p := stateAt World.step ⟨init p, []⟩ inputs

/-- The first slots that the fill phase writes to a pool. -/
def carvedOf (p : Params) (c : SlotClass) (n : Nat) : List (Slot p) :=
  (List.range n).map (fun k => ⟨c, p.slotAddr c k⟩)

def carved (p : Params) (n : SlotClass → Nat) : List (Slot p) :=
  carvedOf p .slot0 (n .slot0) ++ carvedOf p .slot1 (n .slot1)

def freeOf (s : State p) (c : SlotClass) : List (Slot p) := (words (s.pool c).fifo).map (Slot.mk c)

def freeSlots (s : State p) : List (Slot p) := freeOf s .slot0 ++ freeOf s .slot1

def filled (s : State p) (c : SlotClass) : Nat :=
  if s.initialisedQ then p.count c else (s.pool c).freeCountQ.toNat

def Slot.bytes (x : Slot p) : Set Nat := Set.Ico x.addr.toNat (x.addr.toNat + p.size x.cls)

/-- Conditions on the parameters that the checks of the initial block do not cover. -/
structure Params.Sound (p : Params) : Prop where
  /-- The slots fit the buffer, without the wrap-around of total_size. -/
  total_le : p.size .slot0 * p.count .slot0 + p.size .slot1 * p.count .slot1 ≤ p.bufSize.toNat
  space : p.bufStart.toNat + (p.size .slot0 * p.count .slot0 + p.size .slot1 * p.count .slot1) ≤ 2 ^ p.addrWidth
  size_pos : ∀ c, 0 < p.size c
  /-- The free counters have 32 bits. -/
  count_lt : ∀ c, p.count c < 2 ^ 32

/-- The deployed carve-up fills the buffer exactly; its total_size is zero in 16 bits. -/
theorem deployed_sound : deployed.checks = true ∧ deployed.Sound where
  left := by decide +kernel
  right :=
    { total_le := by decide
      space := by decide
      size_pos := fun c => by cases c <;> decide
      count_lt := fun c => by cases c <;> decide }

/-- The outstanding slots are disjoint pieces of the buffer, each long enough for its packet, and every
carved slot is in exactly one place. -/
structure SlotSafe (w : World p) : Prop where
  disjoint : w.outstanding.Pairwise (fun x y => Disjoint x.bytes y.bytes)
  inside : ∀ x ∈ w.outstanding,
    x.bytes ⊆ Set.Ico p.bufStart.toNat (p.bufStart.toNat + p.bufSize.toNat)
  fits : ∀ x ∈ w.outstanding, x.len ≤ p.size x.cls
  partition : (freeSlots w.alloc ++ w.outstanding.map Packet.toSlot).Perm (carved p (filled w.alloc))
  nodup : (carved p (filled w.alloc)).Nodup

section SizeClass

theorem le_iff_roundUp_le (len : Nat) {size : Nat} (h : 64 ∣ size) : len ≤ size ↔ roundUp len ≤ size := by
  obtain ⟨k, rfl⟩ := h
  rw [roundUp]
  omega

theorem classOf_roundUp (h : ∀ c, 64 ∣ p.size c) (len : Nat) : p.classOf (roundUp len) = p.classOf len := by
  have hSlot0 := le_iff_roundUp_le len (h .slot0)
  have hSlot1 := le_iff_roundUp_le len (h .slot1)
  simp only [Params.classOf, ge_iff_le, gt_iff_lt, ← Nat.not_le, hSlot0, hSlot1]

theorem len_le_size {len : Nat} {c : SlotClass} (h : p.classOf len = some c) : len ≤ p.size c := by
  rw [Params.classOf] at h
  split_ifs at h with hSlot0 hSlot1 <;> cases h
  · exact hSlot0.1
  · exact hSlot1

theorem size_dvd_of_checks (hChecks : p.checks = true) (hAlign : p.pktMemAlignment.toNat = 64) (c : SlotClass) :
    64 ∣ p.size c := by
  simp only [Params.checks, Bool.and_eq_true, beq_iff_eq] at hChecks
  have hWidth : 64 ∣ 2 ^ p.lenWidth := by
    have hLt := p.pktMemAlignment.isLt
    rw [hAlign] at hLt
    refine Nat.pow_dvd_pow 2 (m := 6) ?_
    by_contra hSmall
    have hPow : 2 ^ p.lenWidth ≤ 2 ^ 6 := Nat.pow_le_pow_right (by decide) (by omega)
    omega
  have hRound : ∀ x : BitVec p.lenWidth, p.sizeRoundup x p.pktMemAlignment = x → 64 ∣ x.toNat := by
    intro x hx
    rw [← hx, Params.sizeRoundup, hAlign, show Nat.clog 2 64 = 6 by decide, BitVec.toNat_shiftLeft,
      Nat.shiftLeft_eq, Nat.dvd_mod_iff hWidth]
    exact Nat.dvd_mul_left 64 _
  cases c
  · exact hRound _ hChecks.1.1
  · exact hRound _ hChecks.1.2

end SizeClass

section Conservation

variable (s : State p) (i : Input p)

theorem conserved {M : Type*} [AddCancelCommMonoid M] {free free' held held' : M} (out back : M)
    (hFree : free' + out = free + back) (hHeld : held' + back = held + out) : free' + held' = free + held := by
  refine add_right_cancel (b := out + back) ?_
  calc free' + held' + (out + back) = (free' + out) + (held' + back) := by abel
    _ = (free + back) + (held + out) := by rw [hFree, hHeld]
    _ = free + held + (out + back) := by abel

def popped (c : SlotClass) : List (Slot p) :=
  if deqReady s i c then ((deqOutput s c).map (Slot.mk c)).toList else []

def pushed (c : SlotClass) : List (Slot p) :=
  if enqReady s c then ((enqData s i c).map (Slot.mk c)).toList else []

theorem freeOf_step (c : SlotClass) :
    (freeOf (step s i) c + popped s i c : Multiset (Slot p)) = freeOf s c + pushed s i c := by
  have hPushed : pushed s i c = (if enqReady s c then (enqData s i c).toList else []).map (Slot.mk c) := by
    rw [pushed]
    cases enqReady s c <;> cases enqData s i c <;> rfl
  rw [freeOf, step_pool, words_poolD, List.map_append, ← hPushed, ← Multiset.coe_add, add_right_comm]
  congr 1
  rw [freeOf, popped]
  cases deqReady s i c with
  | false => simp
  | true =>
    cases hOut : deqOutput s c with
    | none => simp
    | some addr =>
      rw [words_of_output hOut]
      exact (add_comm _ _).trans (Multiset.singleton_add _ _)

theorem popped_eq_issued :
    (popped s i .slot0 + popped s i .slot1 : Multiset (Slot p)) = ((issued s i).map Packet.toSlot).toList := by
  rw [popped, popped, deqReady, deqReady, issued, writeDesc]
  cases hAlloc : allocClass s i with
  | none => rfl
  | some c =>
    have hClass : p.classOf i.pktLen.toNat = some c := by
      rw [allocClass] at hAlloc
      split_ifs at hAlloc
      exact hAlloc
    have hIssued : ((deqOutput s c).map (fun addr => (addr, i.pktLen, i.pktTag))).bind
        (fun desc => Packet.ofLen desc.1 desc.2.1.toNat) =
        (deqOutput s c).map (fun addr => ⟨⟨c, addr⟩, i.pktLen.toNat, hClass⟩) := by
      cases deqOutput s c with
      | none => rfl
      | some addr => exact Packet.ofLen_of_class hClass
    rw [Option.bind_some, hIssued, Option.map_map]
    cases c with
    | slot0 => exact add_zero _
    | slot1 => exact zero_add _

variable {s i}

theorem pushed_eq_returned (hBeats : ∀ c, 64 ∣ p.size c) (hInit : s.initialisedQ = true)
    (hServed : feedbackTaken s i = true → ∃ x : Packet p, returned s i = some x) :
    (pushed s i .slot0 + pushed s i .slot1 : Multiset (Slot p)) = ((returned s i).map Packet.toSlot).toList := by
  rw [pushed, pushed, enqData, enqData, hInit, freeClass]
  cases hTaken : feedbackTaken s i with
  | false =>
    rw [returned, hTaken]
    cases enqReady s .slot0 <;> cases enqReady s .slot1 <;> rfl
  | true =>
    obtain ⟨x, hx⟩ := hServed hTaken
    have hReady : enqReady s .slot0 = true ∧ enqReady s .slot1 = true := by
      simp only [feedbackTaken, feedbackReady, Bool.and_eq_true] at hTaken
      exact hTaken.2
    have hx' := hx
    rw [returned, hTaken, if_pos rfl, Packet.ofLen_eq_some] at hx'
    have hClass : p.classOf i.feedbackHerSize.toNat = some x.cls := by
      rw [← classOf_roundUp hBeats, ← hx'.2]
      exact x.served
    rw [hx, hClass, hReady.1, hReady.2, ← hx'.1]
    obtain ⟨⟨c, addr⟩, len, hServed⟩ := x
    cases c with
    | slot0 => exact add_zero _
    | slot1 => exact zero_add _

theorem outstanding_step {w : World p} {i : Input p}
    (hMem : ∀ x, returned w.alloc i = some x → x ∈ w.outstanding) :
    ((w.step i).outstanding + (returned w.alloc i).toList : Multiset (Packet p)) =
      w.outstanding + (issued w.alloc i).toList := by
  rw [World.step, ← Multiset.coe_add, add_right_comm]
  congr 1
  cases hReturned : returned w.alloc i with
  | none => exact add_zero _
  | some x =>
    rw [Option.elim_some, Multiset.coe_add, Multiset.coe_eq_coe]
    exact (List.perm_append_singleton x _).trans (List.perm_cons_erase (hMem x hReturned)).symm

end Conservation

section Invariant

/-- What every state satisfies: the slots are accounted for, and nothing is outstanding while the buffer
is being carved up. -/
structure Accounted (w : World p) : Prop where
  partition : (freeSlots w.alloc ++ w.outstanding.map Packet.toSlot).Perm (carved p (filled w.alloc))
  filling : w.alloc.initialisedQ = false →
    w.outstanding = [] ∧ ∀ c, freeOf w.alloc c = carvedOf p c (w.alloc.pool c).freeCountQ.toNat ∧
      (w.alloc.pool c).freeCountQ.toNat ≤ p.count c

theorem accounted_init : Accounted (⟨init p, []⟩ : World p) where
  partition := List.Perm.refl _
  filling _ := ⟨rfl, fun c => by cases c <;> exact ⟨rfl, Nat.zero_le _⟩⟩

theorem Honest.returned {w : World p} {i : Input p} (h : Honest w i) (hTaken : feedbackTaken w.alloc i = true) :
    ∃ x ∈ w.outstanding, PktAlloc.returned w.alloc i = some x := by
  obtain ⟨x, hMem, hAddr, hLen⟩ := h hTaken
  refine ⟨x, hMem, ?_⟩
  rw [PktAlloc.returned, hTaken, if_pos rfl, Packet.ofLen_eq_some]
  exact ⟨hAddr, hLen⟩

theorem mem_of_returned {w : World p} {i : Input p} (h : Honest w i) {x : Packet p}
    (hx : returned w.alloc i = some x) : x ∈ w.outstanding := by
  cases hTaken : feedbackTaken w.alloc i with
  | false =>
    rw [returned, hTaken] at hx
    cases hx
  | true =>
    obtain ⟨y, hMem, hy⟩ := h.returned hTaken
    rw [hx] at hy
    rwa [Option.some.inj hy]

theorem Accounted.step_initialised {w : World p} {i : Input p} (h : Accounted w) (hBeats : ∀ c, 64 ∣ p.size c)
    (hHonest : Honest w i) (hInit : w.alloc.initialisedQ = true) : Accounted (w.step i) := by
  have hInit' : (w.step i).alloc.initialisedQ = true := by
    change initialisedD w.alloc = true
    rw [initialisedD, hInit, Bool.true_or]
  refine ⟨?_, fun hFill => absurd (hInit'.symm.trans hFill) (by decide)⟩
  have hFilled : filled (w.step i).alloc = filled w.alloc := by
    funext c
    rw [filled, filled, if_pos hInit, if_pos hInit']
  rw [hFilled]
  refine List.Perm.trans ?_ h.partition
  rw [← Multiset.coe_eq_coe, ← Multiset.coe_add, ← Multiset.coe_add, ← Multiset.map_coe, ← Multiset.map_coe]
  refine conserved (((issued w.alloc i).map Packet.toSlot).toList)
    (((returned w.alloc i).map Packet.toSlot).toList) ?_ ?_
  · rw [← popped_eq_issued, ← pushed_eq_returned hBeats hInit (fun hTaken =>
      (hHonest.returned hTaken).imp (fun x hx => hx.2))]
    rw [freeSlots, freeSlots, ← Multiset.coe_add, ← Multiset.coe_add, add_add_add_comm,
      add_add_add_comm (freeOf w.alloc .slot0 : Multiset (Slot p))]
    exact congrArg₂ (· + ·) (freeOf_step w.alloc i .slot0) (freeOf_step w.alloc i .slot1)
  · have hOut := congrArg (Multiset.map Packet.toSlot)
      (outstanding_step (fun x hx => mem_of_returned hHonest hx))
    rw [Multiset.map_add, Multiset.map_add] at hOut
    cases hIssued : issued w.alloc i <;> cases hReturned : returned w.alloc i <;>
      simpa [hIssued, hReturned] using hOut

theorem Accounted.fill {w : World p} {i : Input p} (h : Accounted w) (hCount : ∀ c, p.count c < 2 ^ 32)
    (hHonest : Honest w i) (hInit : w.alloc.initialisedQ = false) :
    (w.step i).outstanding = [] ∧ ∀ c,
      (freeCountD w.alloc i c).toNat = min (p.count c) ((w.alloc.pool c).freeCountQ.toNat + 1) ∧
        fillCount w.alloc c = freeCountD w.alloc i c ∧
        freeOf (step w.alloc i) c = carvedOf p c (freeCountD w.alloc i c).toNat := by
  obtain ⟨hNone, hFree⟩ := h.filling hInit
  have hTaken : feedbackTaken w.alloc i = false := by
    by_contra hTaken
    obtain ⟨x, hMem, _⟩ := hHonest (Bool.not_eq_false _ ▸ hTaken)
    rw [hNone] at hMem
    cases hMem
  have hDeq := deqReady_uninitialised w.alloc i hInit
  have hAlloc : allocClass w.alloc i = none := by
    simp [allocClass, pktAccepted, pktReady, hInit]
  constructor
  · rw [World.step, hNone, returned, hTaken, issued, writeDesc, hAlloc]
    rfl
  · intro c
    obtain ⟨hWords, hLe⟩ := hFree c
    have hDepth := p.count_le_depth c
    have hLength : (w.alloc.pool c).fifo.length = (w.alloc.pool c).freeCountQ.toNat := by
      have hLen := congrArg List.length hWords
      simpa [freeOf, carvedOf] using hLen
    have hCountD : freeCountD w.alloc i c = fillCount w.alloc c := by
      simp [freeCountD, hDeq, freeClass, hTaken]
    rw [hCountD, fillCount, initEnqValid, enqReady, ready, hInit, hLength]
    have hStep : freeOf (step w.alloc i) c = freeOf w.alloc c ++ pushed w.alloc i c := by
      rw [freeOf, step_pool, words_poolD, hDeq, Bool.false_and, List.map_append, pushed]
      congr 1
      cases enqReady w.alloc c <;> cases enqData w.alloc i c <;> rfl
    rw [hStep, hWords, pushed, enqData, initEnqValid, enqReady, ready, hInit, hLength]
    by_cases hMore : (w.alloc.pool c).freeCountQ.toNat < p.count c
    · have hRoom : (w.alloc.pool c).freeCountQ.toNat < p.depth c := Nat.lt_of_lt_of_le hMore hDepth
      have hMod : ((w.alloc.pool c).freeCountQ.toNat + 1) % 4294967296 = (w.alloc.pool c).freeCountQ.toNat + 1 :=
        Nat.mod_eq_of_lt (Nat.lt_of_le_of_lt hMore (hCount c))
      rw [Nat.min_eq_right (Nat.succ_le_of_lt hMore)]
      simp [hMore, hRoom, hMod, carvedOf, List.range_succ]
    · have hEq : (w.alloc.pool c).freeCountQ.toNat = p.count c := by omega
      simp [hEq]

theorem Accounted.step_filling {w : World p} {i : Input p} (h : Accounted w) (hCount : ∀ c, p.count c < 2 ^ 32)
    (hHonest : Honest w i) (hInit : w.alloc.initialisedQ = false) : Accounted (w.step i) := by
  obtain ⟨hNone, hFill⟩ := h.fill hCount hHonest hInit
  have hFilled : filled (w.step i).alloc = fun c => (freeCountD w.alloc i c).toNat := by
    funext c
    change (if initialisedD w.alloc then _ else ((step w.alloc i).pool c).freeCountQ.toNat) = _
    rw [step_pool, initialisedD, hInit, Bool.false_or, (hFill .slot0).2.1, (hFill .slot1).2.1]
    split_ifs with hDone
    · simp only [Bool.and_eq_true, decide_eq_true_eq] at hDone
      cases c
      · exact hDone.1.symm
      · exact hDone.2.symm
    · rfl
  constructor
  · rw [hFilled, hNone, freeSlots, carved]
    change (freeOf (step w.alloc i) .slot0 ++ freeOf (step w.alloc i) .slot1 ++ []).Perm _
    rw [(hFill .slot0).2.2, (hFill .slot1).2.2, List.append_nil]
  · intro _
    refine ⟨hNone, fun c => ?_⟩
    change freeOf (step w.alloc i) c = carvedOf p c ((step w.alloc i).pool c).freeCountQ.toNat ∧
      ((step w.alloc i).pool c).freeCountQ.toNat ≤ _
    rw [step_pool]
    exact ⟨(hFill c).2.2, (hFill c).1.le.trans (Nat.min_le_left _ _)⟩

theorem run_accounted {inputs : Nat → Input p} (hBeats : ∀ c, 64 ∣ p.size c) (hCount : ∀ c, p.count c < 2 ^ 32)
    (hHonest : ∀ t, Honest (worldAt inputs t) (inputs t)) (t : Nat) : Accounted (worldAt inputs t) := by
  refine invariant_stateAt accounted_init (fun w i hAccounted hNow => ?_) hHonest t
  cases hInit : w.alloc.initialisedQ with
  | true => exact hAccounted.step_initialised hBeats hNow hInit
  | false => exact hAccounted.step_filling hCount hNow hInit

theorem run_initialised {inputs : Nat → Input p} (hBeats : ∀ c, 64 ∣ p.size c)
    (hCount : ∀ c, p.count c < 2 ^ 32)
    (hHonest : ∀ t, Honest (worldAt inputs t) (inputs t)) {t : Nat} (ht : ∀ c, p.count c < t) :
    (worldAt inputs t).alloc.initialisedQ = true := by
  have hAll : ∀ u, (worldAt inputs u).alloc.initialisedQ = true ∨
      ∀ c, ((worldAt inputs u).alloc.pool c).freeCountQ.toNat = min (p.count c) u := by
    intro u
    induction u with
    | zero => exact Or.inr (fun c => by cases c <;> exact (Nat.min_zero _).symm)
    | succ u ih =>
      cases hInit : (worldAt inputs u).alloc.initialisedQ with
      | true =>
        left
        change initialisedD (worldAt inputs u).alloc = true
        rw [initialisedD, hInit, Bool.true_or]
      | false =>
        right
        intro c
        have hFill := ((run_accounted hBeats hCount hHonest u).fill hCount (hHonest u) hInit).2 c
        change ((step (worldAt inputs u).alloc (inputs u)).pool c).freeCountQ.toNat = _
        rw [step_pool]
        refine hFill.1.trans ?_
        have hPrev := (ih.resolve_left (by rw [hInit]; decide)) c
        omega
  cases t with
  | zero => exact absurd (ht .slot0) (Nat.not_lt_zero _)
  | succ t =>
    cases hInit : (worldAt inputs t).alloc.initialisedQ with
    | true =>
      change initialisedD (worldAt inputs t).alloc = true
      rw [initialisedD, hInit, Bool.true_or]
    | false =>
      have hFull := (hAll t).resolve_left (by rw [hInit]; decide)
      have hFill := ((run_accounted hBeats hCount hHonest t).fill hCount (hHonest t) hInit).2
      have hDone : ∀ c, (fillCount (worldAt inputs t).alloc c).toNat = p.count c := by
        intro c
        have hPrev := hFull c
        have hNow := (hFill c).1
        have hLate := ht c
        rw [(hFill c).2.1]
        omega
      change initialisedD (worldAt inputs t).alloc = true
      simp [initialisedD, hDone]

end Invariant

section Geometry

theorem slotStart_add_le {c : SlotClass} {k : Nat} (hk : k < p.count c) :
    p.slotStart c + p.size c * (k + 1) ≤
      p.bufStart.toNat + (p.size .slot0 * p.count .slot0 + p.size .slot1 * p.count .slot1) := by
  have hMul : p.size c * (k + 1) ≤ p.size c * p.count c := Nat.mul_le_mul_left _ hk
  cases c with
  | slot0 =>
    rw [Params.slotStart]
    omega
  | slot1 =>
    rw [Params.slotStart, Nat.mul_comm p.slot0Count.toNat]
    change p.bufStart.toNat + p.size .slot0 * p.count .slot0 + _ ≤ _
    omega

theorem toNat_slotAddr (hSound : p.Sound) {c : SlotClass} {k : Nat} (hk : k < p.count c) :
    (p.slotAddr c k).toNat = p.slotStart c + p.size c * k := by
  have hEnd := (slotStart_add_le hk).trans hSound.space
  have hPos := hSound.size_pos c
  rw [Nat.mul_add, Nat.mul_one] at hEnd
  rw [Params.slotAddr, BitVec.toNat_ofNat]
  exact Nat.mod_eq_of_lt (by omega)

theorem carvedOf_bytes (hSound : p.Sound) {c : SlotClass} {k : Nat} (hk : k < p.count c) :
    (⟨c, p.slotAddr c k⟩ : Slot p).bytes =
      Set.Ico (p.slotStart c + p.size c * k) (p.slotStart c + p.size c * (k + 1)) := by
  rw [Slot.bytes, toNat_slotAddr hSound hk, Nat.mul_add, Nat.mul_one, Nat.add_assoc]

theorem mem_carved {n : SlotClass → Nat} {x : Slot p} :
    x ∈ carved p n ↔ ∃ k < n x.cls, x = ⟨x.cls, p.slotAddr x.cls k⟩ := by
  obtain ⟨c, addr⟩ := x
  cases c <;> simp [carved, carvedOf, eq_comm]

theorem Ico_disjoint {a b c d : Nat} (h : b ≤ c) : Disjoint (Set.Ico a b) (Set.Ico c d) := by
  rw [Set.disjoint_left]
  intro x hx hy
  exact absurd (hx.2.trans_le h) (Nat.not_lt_of_le hy.1)

theorem carvedOf_disjoint (hSound : p.Sound) {c : SlotClass} {n : Nat} (hn : n ≤ p.count c) :
    (carvedOf p c n).Pairwise (fun x y => Disjoint x.bytes y.bytes) := by
  rw [carvedOf, List.pairwise_map]
  refine List.pairwise_lt_range.imp_of_mem (fun {k l} hk hl hkl => ?_)
  rw [List.mem_range] at hk hl
  rw [carvedOf_bytes hSound (hk.trans_le hn), carvedOf_bytes hSound (hl.trans_le hn)]
  exact Ico_disjoint (Nat.add_le_add_left (Nat.mul_le_mul_left _ hkl) _)

theorem carved_disjoint (hSound : p.Sound) {n : SlotClass → Nat} (hn : ∀ c, n c ≤ p.count c) :
    (carved p n).Pairwise (fun x y => Disjoint x.bytes y.bytes) := by
  rw [carved, List.pairwise_append]
  refine ⟨carvedOf_disjoint hSound (hn _), carvedOf_disjoint hSound (hn _), fun x hx y hy => ?_⟩
  rw [carvedOf, List.mem_map] at hx hy
  obtain ⟨k, hk, rfl⟩ := hx
  obtain ⟨l, hl, rfl⟩ := hy
  rw [List.mem_range] at hk hl
  rw [carvedOf_bytes hSound (hk.trans_le (hn _)), carvedOf_bytes hSound (hl.trans_le (hn _))]
  -- The small slots start where the large ones end.
  refine Ico_disjoint ?_
  have hMul : p.size .slot0 * (k + 1) ≤ p.size .slot0 * p.count .slot0 :=
    Nat.mul_le_mul_left _ (hk.trans_le (hn _))
  rw [Params.slotStart, Params.slotStart, Nat.mul_comm p.slot0Count.toNat]
  change _ ≤ p.bufStart.toNat + p.size .slot0 * p.count .slot0 + _
  omega

theorem carved_nodup (hSound : p.Sound) {n : SlotClass → Nat} (hn : ∀ c, n c ≤ p.count c) :
    (carved p n).Nodup := by
  refine (carved_disjoint hSound hn).imp (fun {x y} hDisjoint hEq => ?_)
  subst hEq
  have hMem : x.addr.toNat ∈ x.bytes := ⟨Nat.le_refl _, Nat.lt_add_of_pos_right (hSound.size_pos x.cls)⟩
  exact Set.disjoint_left.mp hDisjoint hMem hMem

theorem carved_inside (hSound : p.Sound) {n : SlotClass → Nat} (hn : ∀ c, n c ≤ p.count c) {x : Slot p}
    (hx : x ∈ carved p n) : x.bytes ⊆ Set.Ico p.bufStart.toNat (p.bufStart.toNat + p.bufSize.toNat) := by
  obtain ⟨k, hk, hEq⟩ := mem_carved.mp hx
  rw [hEq, carvedOf_bytes hSound (hk.trans_le (hn _))]
  have hEnd := slotStart_add_le (hk.trans_le (hn _))
  have hTotal := hSound.total_le
  have hStart : p.bufStart.toNat ≤ p.slotStart x.cls := by
    cases x.cls
    · exact Nat.le_refl _
    · exact Nat.le_add_right _ _
  exact Set.Ico_subset_Ico (by omega) (by omega)

end Geometry

theorem Accounted.filled_le {w : World p} (h : Accounted w) (c : SlotClass) : filled w.alloc c ≤ p.count c := by
  rw [filled]
  cases hInit : w.alloc.initialisedQ with
  | true => exact Nat.le_refl _
  | false => exact ((h.filling hInit).2 c).2

theorem Accounted.slotSafe {w : World p} (h : Accounted w) (hSound : p.Sound) : SlotSafe w := by
  have hAll : (freeSlots w.alloc ++ w.outstanding.map Packet.toSlot).Pairwise
      (fun x y => Disjoint x.bytes y.bytes) :=
    h.partition.symm.pairwise (carved_disjoint hSound h.filled_le) (fun hDisjoint => hDisjoint.symm)
  have hOut := (List.pairwise_append.mp hAll).2.1
  rw [List.pairwise_map] at hOut
  refine ⟨hOut, fun x hx => ?_, fun x _ => len_le_size x.served, h.partition, carved_nodup hSound h.filled_le⟩
  refine carved_inside hSound h.filled_le (h.partition.mem_iff.mp ?_)
  exact List.mem_append_right _ (List.mem_map_of_mem hx)

/-- With a carve-up that really fits the buffer, every run keeps the slots apart, inside the buffer and
in their own class, from reset on; the fill phase takes as many cycles as the larger pool has slots. -/
theorem slot_safety {inputs : Nat → Input p} (hChecks : p.checks = true)
    (hAlign : p.pktMemAlignment.toNat = 64) (hSound : p.Sound)
    (hHonest : ∀ t, Honest (worldAt inputs t) (inputs t)) (t : Nat) :
    SlotSafe (worldAt inputs t) ∧
      ((∀ c, p.count c < t) → ∀ c, filled (worldAt inputs t).alloc c = p.count c) := by
  have hBeats := size_dvd_of_checks hChecks hAlign
  refine ⟨(run_accounted hBeats hSound.count_lt hHonest t).slotSafe hSound, fun ht c => ?_⟩
  rw [filled, if_pos (run_initialised hBeats hSound.count_lt hHonest ht)]

section OnePacket

/-- Two large slots and a small one, with lengths of eleven bits, in a buffer with or without room for
them. -/
def smallParams (roomy : Bool) : Params where
  lenWidth := 11
  tagWidth := 8
  addrWidth := 32
  bufStart := 0x1c100000
  bufSize := if roomy then 4096 else 1024
  slot0Size := 1024
  slot0Count := 2
  slot1Size := 64
  slot1Count := 1
  pktMemAlignment := 64
  depth _ := 4
  latency := 3
  latency_pos := deployed.latency_pos
  depth0_ge := by decide
  depth1_ge := by decide

/-- A packet of 60 bytes arrives in cycle 4 and its slot comes back in cycle 6. -/
def onePacket (roomy : Bool) (t : Nat) : Input (smallParams roomy) where
  pktTag := 0
  pktLen := (64 : BitVec 11)
  pktValid := t == 4
  feedbackValid := t == 6
  feedbackHerAddr := (0x1c100800 : BitVec 32)
  feedbackHerSize := (60 : BitVec 11)
  writeReady := true

theorem onePacket_honest (roomy : Bool) (t : Nat) :
    Honest (worldAt (onePacket roomy) t) (onePacket roomy t) := by
  by_cases ht : t = 6
  · subst ht
    intro _
    cases roomy <;> exact ⟨⟨⟨.slot1, (0x1c100800 : BitVec 32)⟩, 64, rfl⟩, by decide +kernel, rfl, by decide⟩
  · intro hTaken
    simp [feedbackTaken, onePacket, ht] at hTaken

/-- In 1024 bytes the two large slots and the small one pass the checks, since 2048 is zero in eleven
bits, and the packet is put beyond the end of the buffer. -/
theorem wrapped_total_outside :
    (smallParams false).checks = true ∧ (smallParams false).pktMemAlignment.toNat = 64 ∧
      (∀ t, Honest (worldAt (onePacket false) t) (onePacket false t)) ∧
      ∃ x ∈ (worldAt (onePacket false) 5).outstanding,
        ¬ x.bytes ⊆ Set.Ico (smallParams false).bufStart.toNat
          ((smallParams false).bufStart.toNat + (smallParams false).bufSize.toNat) := by
  refine ⟨by decide +kernel, rfl, onePacket_honest false,
    ⟨⟨.slot1, (0x1c100800 : BitVec 32)⟩, 64, rfl⟩, by decide +kernel, fun hInside => ?_⟩
  have hFirst : (0x1c100800 : Nat) ∈ Set.Ico (0x1c100000 : Nat) (0x1c100000 + 1024) :=
    hInside ⟨Nat.le_refl _, by decide⟩
  exact absurd hFirst.2 (by decide)

theorem smallParams_sound : (smallParams true).Sound where
  total_le := by decide
  space := by decide
  size_pos c := by cases c <;> decide
  count_lt c := by cases c <;> decide

theorem slot_safety_one_packet :
    (worldAt (onePacket true) 5).outstanding.length = 1 ∧ SlotSafe (worldAt (onePacket true) 5) ∧
      SlotSafe (worldAt (onePacket true) 7) :=
  ⟨by decide +kernel,
    (slot_safety (by decide +kernel) rfl smallParams_sound (onePacket_honest true) 5).1,
    (slot_safety (by decide +kernel) rfl smallParams_sound (onePacket_honest true) 7).1⟩

end OnePacket

end FPsPIN.PktAlloc
