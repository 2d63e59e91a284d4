import FPsPIN.Lib.RoundRobin
import FPsPIN.Lib.Run
import FPsPIN.RrArbTree.Tree

/-!
# The round-robin arbiter

The registers of rr_arb_tree around its tree, with the settings of all
instances in PsPIN: a decision that is not granted is locked together with the
requests it was made for, and after a grant the priority goes to the next
request. The decision does not change while it is locked. No request waits for
ever: among the grants that are given while it is up, it is the one after at
most as many others as there are inputs.
-/

namespace FPsPIN.RrArbTree

open CommonCells PriorityEncoder RoundRobin Run

structure State where
  rrQ : Nat
  lockQ : Bool
  reqQ : Nat → Bool

structure Input (Data : Type) where
  req : Nat → Bool
  gnt : Bool
  data : Nat → Data

def init : State := ⟨0, false, fun _ => false⟩

section Combinational

variable {Data : Type} (zero : Data) (numIn : Nat) (s : State) (i : Input Data)

/-- The requests that are arbitrated; a single input is only passed through. -/
def reqD : Nat → Bool := if s.lockQ && decide (numIn ≠ 1) then s.reqQ else i.req

def numLevels : Nat := Nat.clog 2 numIn

def root : Node Data := node numIn (reqD numIn s i) s.rrQ i.data zero (numLevels numIn - 1) 0

def reqO : Bool := if numIn = 1 then i.req 0 else (root zero numIn s i).req

def idxO : Nat := if numIn = 1 then 0 else (root zero numIn s i).index

def dataO : Data := if numIn = 1 then i.data 0 else (root zero numIn s i).data

/-- Bit k of gnt_o. -/
def gntO (k : Nat) : Bool :=
  if numIn = 1 then decide (k = 0) && i.gnt
  else grants numIn (reqD numIn s i) s.rrQ i.data zero true (numLevels numIn - 1) 0 i.gnt k

def upperMask (k : Nat) : Bool := decide (s.rrQ < k) && reqD numIn s i k

def lowerMask (k : Nat) : Bool := decide (k ≤ s.rrQ) && reqD numIn s i k

def nextIdx : Nat :=
  if lzcEmpty numIn (upperMask numIn s i) then lzcCnt numIn (lowerMask numIn s i)
  else lzcCnt numIn (upperMask numIn s i)

def step : State where
  rrQ := if i.gnt && reqO zero numIn s i then nextIdx numIn s i else s.rrQ
  lockQ := reqO zero numIn s i && !i.gnt
  reqQ := reqD numIn s i

end Combinational

section Cycle

variable {Data : Type} {zero : Data} {numIn : Nat} {s : State} {i : Input Data}

theorem two_pow_levels (hMany : 1 < numIn) : numIn ≤ 2 ^ (numLevels numIn - 1 + 1) := by
  have hLevels : 0 < numLevels numIn := Nat.clog_pos (Nat.le_refl 2) hMany
  rw [Nat.sub_add_cancel hLevels]
  exact Nat.le_pow_clog Nat.one_lt_two numIn

theorem root_chooses (hPos : 0 < numIn) :
    Chooses numIn (reqD numIn s i) s.rrQ i.data (numLevels numIn - 1 + 1) 0 (root zero numIn s i) := by
  have hNode := @node_chooses _ numIn (reqD numIn s i) s.rrQ i.data zero hPos (numLevels numIn - 1) 0
  rwa [Nat.zero_mul] at hNode

/-- There is a request at the output if and only if one is arbitrated. -/
theorem reqO_iff (hPos : 0 < numIn) : reqO zero numIn s i = true ↔ ∃ k < numIn, reqD numIn s i k = true := by
  rw [reqO]
  split
  · next hOne =>
    subst hOne
    have hReq : reqD 1 s i = i.req := if_neg (by simp)
    rw [hReq]
    constructor
    · exact fun hReq => ⟨0, Nat.one_pos, hReq⟩
    · rintro ⟨k, hk, hReq⟩
      rwa [Nat.lt_one_iff.mp hk] at hReq
  · next hMany =>
    have hRoot := @root_chooses _ zero numIn s i hPos
    constructor
    · intro hReq
      obtain ⟨hLt, hSet, _⟩ := hRoot.chosen hReq
      exact ⟨_, hLt, hSet⟩
    · rintro ⟨k, hk, hSet⟩
      have hLevels := two_pow_levels (show 1 < numIn by omega)
      exact hRoot.some_req k (by omega) (by rwa [Nat.zero_add]) (by rwa [Nat.zero_add])

theorem idxO_spec (hPos : 0 < numIn) (hReq : reqO zero numIn s i = true) :
    idxO zero numIn s i < numIn ∧ reqD numIn s i (idxO zero numIn s i) = true ∧
      dataO zero numIn s i = i.data (idxO zero numIn s i) := by
  rw [reqO] at hReq
  rw [idxO, dataO]
  split
  · next hOne =>
    subst hOne
    rw [if_pos rfl] at hReq
    have hSame : reqD 1 s i = i.req := if_neg (by simp)
    exact ⟨Nat.one_pos, by rwa [hSame], rfl⟩
  · next hMany =>
    rw [if_neg hMany] at hReq
    have hChosen := (@root_chooses _ zero numIn s i hPos).chosen hReq
    rwa [Nat.zero_add] at hChosen

theorem idxO_of_priority (hRr : s.rrQ < numIn) (hReq : reqD numIn s i s.rrQ = true) :
    idxO zero numIn s i = s.rrQ := by
  rw [idxO]
  split
  · next hOne => omega
  · next hMany =>
    have hLevels := two_pow_levels (show 1 < numIn by omega)
    have hMod : s.rrQ % 2 ^ (numLevels numIn - 1 + 1) = s.rrQ := Nat.mod_eq_of_lt (by omega)
    have hFirst := (@root_chooses _ zero numIn s i (Nat.zero_lt_of_lt hRr)).first
    rw [hMod, Nat.zero_add] at hFirst
    exact hFirst hRr hReq

theorem gntO_eq (hPos : 0 < numIn) (hReq : reqO zero numIn s i = true) (k : Nat) :
    gntO zero numIn s i k = (i.gnt && decide (k = idxO zero numIn s i)) := by
  rw [reqO] at hReq
  rw [gntO, idxO]
  split
  · rw [Bool.and_comm]
  · next hMany =>
    rw [if_neg hMany] at hReq
    rw [grants_eq hPos k hReq, Nat.zero_mul, Nat.zero_add]
    rfl

theorem idxO_step {i' : Input Data} (hReq : reqO zero numIn s i = true) (hGnt : i.gnt = false) (hMany : numIn ≠ 1) :
    reqO zero numIn (step zero numIn s i) i' = true ∧
      idxO zero numIn (step zero numIn s i) i' = idxO zero numIn s i := by
  have hLock : (step zero numIn s i).lockQ = true := by
    change (reqO zero numIn s i && !i.gnt) = true
    rw [hReq, hGnt]
    rfl
  have hRr : (step zero numIn s i).rrQ = s.rrQ := by
    change (if i.gnt && reqO zero numIn s i then _ else _) = _
    rw [hGnt, Bool.false_and, if_neg Bool.false_ne_true]
  have hReqs : reqD numIn (step zero numIn s i) i' = reqD numIn s i := by
    rw [reqD, hLock, decide_eq_true hMany]
    rfl
  obtain ⟨hSame, hIndex⟩ := @node_data _ numIn (reqD numIn s i) s.rrQ i'.data zero _ i.data zero
    (numLevels numIn - 1) 0
  rw [reqO, if_neg hMany] at hReq
  rw [reqO, idxO, idxO, if_neg hMany, if_neg hMany, if_neg hMany, root, hReqs, hRr, root]
  exact ⟨hSame.trans hReq, hIndex⟩

theorem nextIdx_isNext {k : Nat} (hk : k < numIn) (hReq : reqD numIn s i k = true) :
    IsNext numIn (reqD numIn s i) s.rrQ (nextIdx numIn s i) := by
  cases hEmpty : lzcEmpty numIn (upperMask numIn s i) with
  | true =>
    have hUpper : ∀ j, s.rrQ < j → j < numIn → reqD numIn s i j = false := by
      intro j hj hIn
      have hMask := lzcEmpty_eq_true.mp hEmpty j hIn
      rwa [upperMask, decide_eq_true hj, Bool.true_and] at hMask
    have hBelow : k ≤ s.rrQ := by
      by_contra hAbove
      rw [hUpper k (Nat.lt_of_not_le hAbove) hk] at hReq
      cases hReq
    have hMask : lowerMask numIn s i k = true := by
      rw [lowerMask, decide_eq_true hBelow, hReq]
      rfl
    obtain ⟨hLt, hSet, hFirst⟩ := lzcCnt_spec _ hk hMask
    obtain ⟨hLe, hBit⟩ := Bool.and_eq_true_iff.mp hSet
    have hLe := of_decide_eq_true hLe
    rw [nextIdx, hEmpty, if_pos rfl]
    refine ⟨hLt, hBit, fun hAbove => absurd hLe (Nat.not_le_of_lt hAbove), fun _ => ⟨hUpper, fun j hj => ?_⟩⟩
    have hClear := hFirst j hj
    rwa [lowerMask, decide_eq_true (by omega), Bool.true_and] at hClear
  | false =>
    have hSome : ∃ j < numIn, upperMask numIn s i j = true := by
      by_contra hNone
      push Not at hNone
      rw [lzcEmpty_eq_true.mpr fun j hj => Bool.eq_false_iff.mpr (hNone j hj)] at hEmpty
      cases hEmpty
    obtain ⟨j, hj, hMask⟩ := hSome
    obtain ⟨hLt, hSet, hFirst⟩ := lzcCnt_spec _ hj hMask
    obtain ⟨hAbove, hBit⟩ := Bool.and_eq_true_iff.mp hSet
    have hAbove := of_decide_eq_true hAbove
    rw [nextIdx, hEmpty, if_neg Bool.false_ne_true]
    refine ⟨hLt, hBit, fun _ m hm hNext => ?_, fun hLe => absurd hLe (Nat.not_le_of_lt hAbove)⟩
    have hClear := hFirst m hNext
    rwa [upperMask, decide_eq_true hm, Bool.true_and] at hClear

theorem nextIdx_lt (hPos : 0 < numIn) : nextIdx numIn s i < numIn := by
  rw [nextIdx]
  split <;> exact lzcCnt_lt hPos

/-- No request that was locked is withdrawn, which the source assumes of its users. -/
def Held (numIn : Nat) (s : State) (req : Nat → Bool) : Prop :=
  s.lockQ = true → (∃ k < numIn, s.reqQ k = true) ∧ ∀ k < numIn, s.reqQ k = true → req k = true

theorem Held.reqD_le (h : Held numIn s i.req) {k : Nat} (hk : k < numIn) (hReq : reqD numIn s i k = true) :
    i.req k = true := by
  rw [reqD] at hReq
  split at hReq
  · next hLock => exact (h (Bool.and_eq_true_iff.mp hLock).1).2 k hk hReq
  · exact hReq

/-- Then the output has a request if and only if an input has one now. -/
theorem Held.reqO_iff (h : Held numIn s i.req) (hPos : 0 < numIn) :
    reqO zero numIn s i = true ↔ ∃ k < numIn, i.req k = true := by
  rw [RrArbTree.reqO_iff hPos]
  constructor
  · rintro ⟨k, hk, hReq⟩
    exact ⟨k, hk, h.reqD_le hk hReq⟩
  · rintro ⟨k, hk, hReq⟩
    by_cases hLock : (s.lockQ && decide (numIn ≠ 1)) = true
    · obtain ⟨⟨j, hj, hSet⟩, _⟩ := h (Bool.and_eq_true_iff.mp hLock).1
      exact ⟨j, hj, by rwa [reqD, if_pos hLock]⟩
    · exact ⟨k, hk, by rwa [reqD, if_neg hLock]⟩

theorem Held.req_idxO (h : Held numIn s i.req) (hPos : 0 < numIn) (hReq : reqO zero numIn s i = true) :
    idxO zero numIn s i < numIn ∧ i.req (idxO zero numIn s i) = true := by
  obtain ⟨hLt, hSet, _⟩ := idxO_spec hPos hReq
  exact ⟨hLt, h.reqD_le hLt hSet⟩

theorem Held.step (h : Held numIn s i.req) (hPos : 0 < numIn) {req' : Nat → Bool}
    (hKept : i.gnt = false → ∀ k < numIn, i.req k = true → req' k = true) :
    Held numIn (step zero numIn s i) req' := by
  intro hLock
  obtain ⟨hReq, hGnt⟩ := Bool.and_eq_true_iff.mp (show (reqO zero numIn s i && !i.gnt) = true from hLock)
  rw [Bool.not_eq_true'] at hGnt
  exact ⟨(RrArbTree.reqO_iff hPos).mp hReq, fun k hk hSet => hKept hGnt k hk (h.reqD_le hk hSet)⟩

theorem Held.init (req : Nat → Bool) : Held numIn RrArbTree.init req := fun hLock => absurd hLock Bool.false_ne_true

/-- The requests of numbered parties as a vector. -/
def vec {n : Nat} (f : Fin n → Bool) (k : Nat) : Bool := if h : k < n then f ⟨k, h⟩ else false

theorem vec_val {n : Nat} (f : Fin n → Bool) (j : Fin n) : vec f j.val = f j := dif_pos j.isLt

/-- Output idx_o as the number of a party. -/
def choice {n : Nat} (hPos : 0 < n) (zero : Data) (s : State) (i : Input Data) : Fin n :=
  ⟨idxO zero n s i % n, Nat.mod_lt _ hPos⟩

/-- If a party has a request, one that has a request is chosen. -/
theorem Held.choice {n : Nat} {f : Fin n → Bool} (h : Held n s i.req) (hPos : 0 < n) (hVec : i.req = vec f)
    {j : Fin n} (hj : f j = true) :
    reqO zero n s i = true ∧ (choice hPos zero s i).val = idxO zero n s i ∧ f (choice hPos zero s i) = true := by
  have hReq : reqO zero n s i = true := (h.reqO_iff hPos).mpr ⟨j, j.isLt, by rw [hVec, vec_val, hj]⟩
  obtain ⟨hLt, hSet⟩ := h.req_idxO hPos hReq
  have hVal : (RrArbTree.choice hPos zero s i).val = idxO zero n s i := Nat.mod_eq_of_lt hLt
  exact ⟨hReq, hVal, by rwa [← hVal, hVec, vec_val] at hSet⟩

theorem choice_step {n : Nat} (hPos hPos' : 0 < n) {i' : Input Data} (hReq : reqO zero n s i = true)
    (hGnt : i.gnt = false) : choice hPos' zero (step zero n s i) i' = choice hPos zero s i := by
  by_cases hMany : n = 1
  · subst hMany
    exact Subsingleton.elim _ _
  · exact Fin.ext (congrArg (· % n) (idxO_step hReq hGnt hMany).2)

end Cycle

section Runs

variable {Data : Type} (zero : Data) (numIn : Nat) (inputs : Nat → Input Data)

def runAt (t : Nat) : State := stateAt (step zero numIn) init inputs t

def granted (t : Nat) : List Nat :=
  if (inputs t).gnt && reqO zero numIn (runAt zero numIn inputs t) (inputs t) then
    [idxO zero numIn (runAt zero numIn inputs t) (inputs t)]
  else []

variable {zero numIn inputs}

theorem rrQ_lt (hPos : 0 < numIn) (t : Nat) : (runAt zero numIn inputs t).rrQ < numIn := by
  induction t with
  | zero => exact hPos
  | succ t ih =>
    change (if _ then nextIdx numIn _ _ else (runAt zero numIn inputs t).rrQ) < numIn
    split
    · exact nextIdx_lt hPos
    · exact ih

/-- The lock, if there is one, has the request of input k in it. -/
def Fresh (s : State) (k : Nat) : Prop := s.lockQ = true → s.reqQ k = true

theorem Fresh.reqD {s : State} {k : Nat} (h : Fresh s k) {i : Input Data} (hReq : i.req k = true) :
    reqD numIn s i k = true := by
  rw [RrArbTree.reqD]
  split
  · next hLock => exact h (Bool.and_eq_true_iff.mp hLock).1
  · exact hReq

theorem Fresh.step {s : State} {k : Nat} (h : Fresh s k) {i : Input Data} (hReq : i.req k = true) :
    Fresh (step zero numIn s i) k := fun _ => h.reqD hReq

theorem fresh_of_grant {s : State} {k : Nat} {i : Input Data} (hGnt : i.gnt = true) :
    Fresh (step zero numIn s i) k := by
  intro hLock
  have hBoth := (Bool.and_eq_true_iff.mp (show (reqO zero numIn s i && !i.gnt) = true from hLock)).2
  rw [hGnt] at hBoth
  cases hBoth

theorem distance_step {s : State} {k : Nat} {i : Input Data} (hk : k < numIn) (hRr : s.rrQ < numIn)
    (hReq : reqD numIn s i k = true) (hGrant : (i.gnt && reqO zero numIn s i) = true)
    (hOther : idxO zero numIn s i ≠ k) : distance numIn (step zero numIn s i).rrQ k < distance numIn s.rrQ k := by
  have hNe : k ≠ s.rrQ := by
    rintro rfl
    exact hOther (idxO_of_priority hRr hReq)
  have hNext : (step zero numIn s i).rrQ = nextIdx numIn s i := if_pos hGrant
  rw [hNext]
  exact (nextIdx_isNext hk hReq).distance_lt hRr hk hReq hNe

section Waiting

variable {k t : Nat} (hk : k < numIn)

include hk

theorem waiting_bound {u : Nat} (htu : t ≤ u) (hReq : ∀ v, t ≤ v → v < u → (inputs v).req k = true)
    (hNot : k ∉ window (granted zero numIn inputs) t u) :
    window (granted zero numIn inputs) t u = [] ∨ Fresh (runAt zero numIn inputs u) k ∧
      (window (granted zero numIn inputs) t u).length + distance numIn (runAt zero numIn inputs u).rrQ k ≤ numIn := by
  induction u, htu using Nat.le_induction with
  | base => exact .inl (window_self _ t)
  | succ u htu ih =>
    rw [window_succ _ htu, List.mem_append, not_or] at hNot
    have hBefore := ih (fun v htv hvu => hReq v htv (Nat.lt_succ_of_lt hvu)) hNot.1
    have hNow := hReq u htu (Nat.lt_succ_self u)
    have hRr := @rrQ_lt _ zero numIn inputs (Nat.zero_lt_of_lt hk) u
    have hRrNext := @rrQ_lt _ zero numIn inputs (Nat.zero_lt_of_lt hk) (u + 1)
    have hNext : runAt zero numIn inputs (u + 1) = step zero numIn (runAt zero numIn inputs u) (inputs u) := rfl
    rw [window_succ _ htu, List.length_append]
    cases hGrant : (inputs u).gnt && reqO zero numIn (runAt zero numIn inputs u) (inputs u) with
    | false =>
      have hSame : (runAt zero numIn inputs (u + 1)).rrQ = (runAt zero numIn inputs u).rrQ := by
        rw [hNext]
        exact if_neg (by rw [hGrant]; exact Bool.false_ne_true)
      rw [granted, hGrant, if_neg Bool.false_ne_true, List.append_nil, hSame]
      rcases hBefore with hNone | ⟨hFresh, hBound⟩
      · exact .inl hNone
      · exact .inr ⟨hFresh.step hNow, hBound⟩
    | true =>
      have hOne : granted zero numIn inputs u = [idxO zero numIn (runAt zero numIn inputs u) (inputs u)] :=
        if_pos hGrant
      have hFreshNext : Fresh (runAt zero numIn inputs (u + 1)) k :=
        fresh_of_grant (Bool.and_eq_true_iff.mp hGrant).1
      refine .inr ⟨hFreshNext, ?_⟩
      rw [hOne] at hNot ⊢
      rw [List.length_singleton]
      rcases hBefore with hNone | ⟨hFresh, hBound⟩
      · have hLt := distance_lt hRrNext hk
        rw [hNone, List.length_nil]
        omega
      · have hOther : idxO zero numIn (runAt zero numIn inputs u) (inputs u) ≠ k := fun hEq =>
          hNot.2 (List.mem_singleton.mpr hEq.symm)
        have hCloser := distance_step hk hRr (hFresh.reqD hNow) hGrant hOther
        rw [← hNext] at hCloser
        omega

/-- A request that is up is granted among the next grants, of which there are at most one more than inputs. -/
theorem granted_of_many {u : Nat} (htu : t ≤ u) (hReq : ∀ v, t ≤ v → v < u → (inputs v).req k = true)
    (hMany : numIn < (window (granted zero numIn inputs) t u).length) :
    k ∈ window (granted zero numIn inputs) t u := by
  by_contra hNot
  rcases waiting_bound hk htu hReq hNot with hNone | ⟨_, hBound⟩
  · rw [hNone] at hMany
    cases hMany
  · omega

theorem granted_of_always (hReq : ∀ v, t ≤ v → (inputs v).req k = true)
    (hGrants : ∀ v, t ≤ v → ∃ u, v ≤ u ∧ granted zero numIn inputs u ≠ []) :
    ∃ u, t ≤ u ∧ k ∈ granted zero numIn inputs u := by
  obtain ⟨u, htu, hMany⟩ := exists_length_window hGrants (numIn + 1)
  obtain ⟨v, htv, -, hMem⟩ := mem_window.mp (granted_of_many hk htu (fun v htv _ => hReq v htv) hMany)
  exact ⟨v, htv, hMem⟩

end Waiting

/-- An arbiter whose choices are always granted comes to every party that does not give up. -/
theorem choice_of_granting (zero : Data) {n : Nat} (inputs : Nat → Input Data) {f : Nat → Fin n → Bool}
    (hPos : 0 < n)
    (hVec : ∀ u, (inputs u).req = vec (f u)) (hGnt : ∀ u, (inputs u).gnt = true) (j : Fin n) (t : Nat) :
    ∃ u, t ≤ u ∧ (f u j = true → choice hPos zero (runAt zero n inputs u) (inputs u) = j) := by
  have hHeld : ∀ u, Held n (runAt zero n inputs u) (inputs u).req := by
    intro u
    induction u with
    | zero => exact .init _
    | succ u ih => exact ih.step hPos fun hNot => absurd (hGnt u) (hNot ▸ Bool.false_ne_true)
  by_contra hNever
  push Not at hNever
  have hGranted : ∀ u, t ≤ u →
      granted zero n inputs u = [(choice hPos zero (runAt zero n inputs u) (inputs u)).val] := by
    intro u htu
    obtain ⟨hReq, hVal, -⟩ := @Held.choice _ zero _ _ _ _ (hHeld u) hPos (hVec u) _ (hNever u htu).1
    rw [granted, hGnt, hReq, hVal]
    rfl
  have hSome : ∀ v, t ≤ v → ∃ u, v ≤ u ∧ granted zero n inputs u ≠ [] := by
    intro v htv
    exact ⟨v, Nat.le_refl v, by rw [hGranted v htv]; exact List.cons_ne_nil _ _⟩
  have hReq : ∀ v, t ≤ v → (inputs v).req j = true := by
    intro v htv
    rw [hVec, vec_val, (hNever v htv).1]
  obtain ⟨u, htu, hMem⟩ := granted_of_always j.isLt hReq hSome
  rw [hGranted u htu, List.mem_singleton] at hMem
  exact (hNever u htu).2 (Fin.ext hMem.symm)

end Runs

end FPsPIN.RrArbTree
