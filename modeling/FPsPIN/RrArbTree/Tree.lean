import FPsPIN.CommonCells
import Mathlib.Data.Nat.Bitwise
import Mathlib.Data.Nat.Log

/-!
# The arbitration tree

The tree of rr_arb_tree: a node passes on the request and the index of one of
its two children, and the priority decides if both have a request. All
instances in PsPIN set AxiVldRdy, LockIn and FairArb, and none sets ExtPrio or
uses flush_i; the tree itself does not depend on them except for AxiVldRdy,
which is a parameter here. Heights count from the level above the inputs.
-/

namespace FPsPIN.RrArbTree

structure Node (Data : Type) where
  req : Bool
  index : Nat
  data : Data

def sel (left right rrBit : Bool) : Bool := !left || (right && rrBit)

section Tree

variable {Data : Type} (numIn : Nat) (reqD : Nat → Bool) (rrQ : Nat) (dataI : Nat → Data) (zero : Data)

/-- A node of the level that the inputs are fed into. -/
def firstLevel (l : Nat) : Node Data :=
  if l * 2 < numIn - 1 then
    let s := sel (reqD (l * 2)) (reqD (l * 2 + 1)) (rrQ.testBit 0)
    ⟨reqD (l * 2) || reqD (l * 2 + 1), s.toNat, if s then dataI (l * 2 + 1) else dataI (l * 2)⟩
  else if l * 2 = numIn - 1 then ⟨reqD (l * 2), 0, dataI (l * 2)⟩
  else ⟨false, 0, zero⟩

/-- Node l of a level, by its height. -/
def node : Nat → Nat → Node Data
  | 0, l => firstLevel numIn reqD rrQ dataI zero l
  | h + 1, l =>
    let left := node h (l * 2)
    let right := node h (l * 2 + 1)
    let s := sel left.req right.req (rrQ.testBit (h + 1))
    { req := left.req || right.req
      index := if s then 2 ^ (h + 1) + right.index % 2 ^ (h + 1) else left.index % 2 ^ (h + 1)
      data := if s then right.data else left.data }

variable (axiVldRdy : Bool)

/-- Bit i of gnt_o, as far as it comes from node l of a level with the given grant. -/
def grants : Nat → Nat → Bool → Nat → Bool
  | 0, l, gnt, i =>
    if l * 2 < numIn - 1 then
      let s := sel (reqD (l * 2)) (reqD (l * 2 + 1)) (rrQ.testBit 0)
      (decide (i = l * 2) && (gnt && (axiVldRdy || reqD (l * 2)) && !s)) ||
        (decide (i = l * 2 + 1) && (gnt && (axiVldRdy || reqD (l * 2 + 1)) && s))
    else if l * 2 = numIn - 1 then decide (i = l * 2) && (gnt && (axiVldRdy || reqD (l * 2)))
    else false
  | h + 1, l, gnt, i =>
    let s := sel (node numIn reqD rrQ dataI zero h (l * 2)).req (node numIn reqD rrQ dataI zero h (l * 2 + 1)).req
      (rrQ.testBit (h + 1))
    grants h (l * 2) (gnt && !s) i || grants h (l * 2 + 1) (gnt && s) i

end Tree

section Choice

variable {Data : Type} {numIn : Nat} {reqD : Nat → Bool} {rrQ : Nat} {dataI : Nat → Data} {zero : Data}

/-- What a node with the 2 ^ b inputs from a base on below it chooses among them. -/
structure Chooses (numIn : Nat) (reqD : Nat → Bool) (rrQ : Nat) (dataI : Nat → Data) (b base : Nat)
    (x : Node Data) : Prop where
  index_lt : x.index < 2 ^ b
  chosen : x.req = true → base + x.index < numIn ∧ reqD (base + x.index) = true ∧ x.data = dataI (base + x.index)
  some_req : ∀ k < 2 ^ b, base + k < numIn → reqD (base + k) = true → x.req = true
  first : base + rrQ % 2 ^ b < numIn → reqD (base + rrQ % 2 ^ b) = true → x.index = rrQ % 2 ^ b

def leaf (reqD : Nat → Bool) (dataI : Nat → Data) (i : Nat) : Node Data := ⟨reqD i, 0, dataI i⟩

theorem leaf_chooses {i : Nat} (hi : i < numIn) : Chooses numIn reqD rrQ dataI 0 i (leaf reqD dataI i) where
  index_lt := Nat.one_pos
  chosen hReq := ⟨hi, hReq, rfl⟩
  some_req k hk _ hSet := by
    obtain rfl : k = 0 := Nat.lt_one_iff.mp hk
    exact hSet
  first _ _ := (Nat.mod_one rrQ).symm

def join (rrBit : Bool) (b : Nat) (left right : Node Data) : Node Data :=
  let s := sel left.req right.req rrBit
  { req := left.req || right.req
    index := if s then 2 ^ b + right.index else left.index
    data := if s then right.data else left.data }

theorem sel_eq_false {left right rrBit : Bool} :
    sel left right rrBit = false ↔ left = true ∧ (right = true → rrBit = false) := by
  cases left <;> cases right <;> cases rrBit <;> decide

theorem join_chooses {b base : Nat} {left right : Node Data} (hLeft : Chooses numIn reqD rrQ dataI b base left)
    (hRight : Chooses numIn reqD rrQ dataI b (base + 2 ^ b) right) :
    Chooses numIn reqD rrQ dataI (b + 1) base (join (rrQ.testBit b) b left right) := by
  have hLeftLt := hLeft.index_lt
  have hRightLt := hRight.index_lt
  have hPow : 2 ^ (b + 1) = 2 ^ b + 2 ^ b := by rw [Nat.pow_succ]; omega
  have hMod : rrQ % 2 ^ (b + 1) = 2 ^ b * (rrQ.testBit b).toNat + rrQ % 2 ^ b := by
    rw [Nat.mod_pow_succ, Nat.toNat_testBit, Nat.add_comm]
  have hRr := Nat.mod_lt rrQ (Nat.two_pow_pos b)
  constructor
  · rw [join]
    dsimp only
    split <;> omega
  · intro hReq
    rw [join] at hReq ⊢
    dsimp only at hReq ⊢
    cases hSel : sel left.req right.req (rrQ.testBit b) with
    | false =>
      rw [if_neg Bool.false_ne_true, if_neg Bool.false_ne_true]
      exact hLeft.chosen (sel_eq_false.mp hSel).1
    | true =>
      have hSet : right.req = true := by
        cases hL : left.req with
        | false => rwa [hL, Bool.false_or] at hReq
        | true =>
          rw [hL, sel, Bool.not_true, Bool.false_or, Bool.and_eq_true] at hSel
          exact hSel.1
      rw [if_pos rfl, if_pos rfl, ← Nat.add_assoc]
      exact hRight.chosen hSet
  · intro k hk hIn hSet
    rw [join]
    dsimp only
    rw [Bool.or_eq_true]
    rcases Nat.lt_or_ge k (2 ^ b) with hLow | hHigh
    · exact .inl (hLeft.some_req k hLow hIn hSet)
    · have hSum : base + 2 ^ b + (k - 2 ^ b) = base + k := by omega
      exact .inr (hRight.some_req (k - 2 ^ b) (by omega) (by rwa [hSum]) (by rwa [hSum]))
  · intro hIn hSet
    rw [hMod] at hIn hSet ⊢
    rw [join]
    dsimp only
    cases hBit : rrQ.testBit b with
    | false =>
      rw [hBit, Bool.toNat_false, Nat.mul_zero, Nat.zero_add] at hIn hSet
      have hReq := hLeft.some_req _ hRr hIn hSet
      rw [hReq, sel, Bool.not_true, Bool.and_false, Bool.or_false, if_neg Bool.false_ne_true, Bool.toNat_false,
        Nat.mul_zero, Nat.zero_add]
      exact hLeft.first hIn hSet
    | true =>
      rw [hBit, Bool.toNat_true, Nat.mul_one, ← Nat.add_assoc] at hIn hSet
      have hReq := hRight.some_req _ hRr hIn hSet
      rw [hReq, sel, Bool.and_true, Bool.or_true, if_pos rfl, Bool.toNat_true, Nat.mul_one]
      exact congrArg (2 ^ b + ·) (hRight.first hIn hSet)

theorem firstLevel_eq_join {l : Nat} (hBoth : l * 2 < numIn - 1) :
    firstLevel numIn reqD rrQ dataI zero l =
      join (rrQ.testBit 0) 0 (leaf reqD dataI (l * 2)) (leaf reqD dataI (l * 2 + 1)) := by
  rw [firstLevel, if_pos hBoth]
  rcases Bool.eq_false_or_eq_true (sel (reqD (l * 2)) (reqD (l * 2 + 1)) (rrQ.testBit 0)) with hSel | hSel <;>
    simp only [join, leaf, hSel] <;> rfl

theorem firstLevel_chooses (hPos : 0 < numIn) (l : Nat) :
    Chooses numIn reqD rrQ dataI 1 (l * 2) (firstLevel numIn reqD rrQ dataI zero l) := by
  by_cases hBoth : l * 2 < numIn - 1
  · rw [firstLevel_eq_join hBoth]
    exact join_chooses (leaf_chooses (by omega)) (leaf_chooses (by omega))
  rw [firstLevel, if_neg hBoth]
  have hRr := Nat.mod_lt rrQ (Nat.two_pow_pos 1)
  split
  · next hLast =>
    -- of the two inputs only the first one exists
    have hFirst : ∀ {k}, l * 2 + k < numIn → k = 0 := by
      intro k hk
      omega
    refine ⟨Nat.two_pos, fun hReq => ⟨?_, hReq, rfl⟩, fun k _ hIn hSet => ?_, fun hIn _ => (hFirst hIn).symm⟩
    · change l * 2 + 0 < numIn
      omega
    rwa [hFirst hIn] at hSet
  · next hNone =>
    have hOut : ∀ {k}, ¬ l * 2 + k < numIn := by
      intro k
      omega
    exact ⟨Nat.two_pos, fun hReq => absurd hReq Bool.false_ne_true, fun k _ hIn _ => absurd hIn hOut,
      fun hIn _ => absurd hIn hOut⟩

theorem node_succ_eq_join {h l : Nat}
    (hLeft : Chooses numIn reqD rrQ dataI (h + 1) (l * 2 * 2 ^ (h + 1)) (node numIn reqD rrQ dataI zero h (l * 2)))
    (hRight : Chooses numIn reqD rrQ dataI (h + 1) ((l * 2 + 1) * 2 ^ (h + 1))
      (node numIn reqD rrQ dataI zero h (l * 2 + 1))) :
    node numIn reqD rrQ dataI zero (h + 1) l =
      join (rrQ.testBit (h + 1)) (h + 1) (node numIn reqD rrQ dataI zero h (l * 2))
        (node numIn reqD rrQ dataI zero h (l * 2 + 1)) := by
  rw [node, join, Nat.mod_eq_of_lt hLeft.index_lt, Nat.mod_eq_of_lt hRight.index_lt]

theorem node_chooses (hPos : 0 < numIn) (h l : Nat) :
    Chooses numIn reqD rrQ dataI (h + 1) (l * 2 ^ (h + 1)) (node numIn reqD rrQ dataI zero h l) := by
  induction h generalizing l with
  | zero => exact firstLevel_chooses hPos l
  | succ h ih =>
    have hLeft := ih (l * 2)
    have hRight := ih (l * 2 + 1)
    rw [node_succ_eq_join hLeft hRight]
    have hBase : l * 2 * 2 ^ (h + 1) = l * 2 ^ (h + 1 + 1) := by
      rw [Nat.pow_succ 2 (h + 1), Nat.mul_assoc, Nat.mul_comm 2]
    rw [Nat.add_mul, Nat.one_mul, hBase] at hRight
    exact join_chooses (hBase ▸ hLeft) hRight

theorem node_data {Data' : Type} (dataI' : Nat → Data') (zero' : Data') (h l : Nat) :
    (node numIn reqD rrQ dataI zero h l).req = (node numIn reqD rrQ dataI' zero' h l).req ∧
      (node numIn reqD rrQ dataI zero h l).index = (node numIn reqD rrQ dataI' zero' h l).index := by
  induction h generalizing l with
  | zero =>
    rw [node, node, firstLevel, firstLevel]
    split
    · exact ⟨rfl, rfl⟩
    · split <;> exact ⟨rfl, rfl⟩
  | succ h ih =>
    obtain ⟨hReqLeft, hLeft⟩ := ih (l * 2)
    obtain ⟨hReqRight, hRight⟩ := ih (l * 2 + 1)
    rw [node, node]
    dsimp only
    rw [hReqLeft, hLeft, hReqRight, hRight]
    exact ⟨rfl, rfl⟩

end Choice

section Grants

variable {Data : Type} {numIn : Nat} {reqD : Nat → Bool} {rrQ : Nat} {dataI : Nat → Data} {zero : Data}
variable {axiVldRdy : Bool}

@[simp] theorem grants_false (h l i : Nat) : grants numIn reqD rrQ dataI zero axiVldRdy h l false i = false := by
  induction h generalizing l with
  | zero => simp [grants]
  | succ h ih =>
    rw [grants, Bool.false_and, Bool.false_and, ih, ih]
    rfl

theorem grants_succ (h l i : Nat) (gnt : Bool) :
    grants numIn reqD rrQ dataI zero axiVldRdy (h + 1) l gnt i =
      grants numIn reqD rrQ dataI zero axiVldRdy h
        (if sel (node numIn reqD rrQ dataI zero h (l * 2)).req (node numIn reqD rrQ dataI zero h (l * 2 + 1)).req
          (rrQ.testBit (h + 1)) then l * 2 + 1 else l * 2) gnt i := by
  rw [grants]
  split
  · next hSel => rw [hSel, Bool.not_true, Bool.and_false, Bool.and_true, grants_false, Bool.false_or]
  · next hSel =>
    rw [Bool.eq_false_iff.mpr hSel, Bool.not_false, Bool.and_true, Bool.and_false, grants_false, Bool.or_false]

theorem req_of_sel {left right : Node Data} {rrBit : Bool} (hReq : (left.req || right.req) = true) :
    (if sel left.req right.req rrBit then right else left).req = true := by
  split
  · next hSel =>
    rw [sel, Bool.or_eq_true, Bool.not_eq_true', Bool.and_eq_true] at hSel
    rcases hSel with hLeft | ⟨hRight, _⟩
    · rwa [hLeft, Bool.false_or] at hReq
    · exact hRight
  · next hSel => exact (sel_eq_false.mp (Bool.eq_false_iff.mpr hSel)).1

theorem grants_eq (hPos : 0 < numIn) {h l : Nat} {gnt : Bool} (i : Nat)
    (hReq : (node numIn reqD rrQ dataI zero h l).req = true) :
    grants numIn reqD rrQ dataI zero axiVldRdy h l gnt i =
      (gnt && decide (i = l * 2 ^ (h + 1) + (node numIn reqD rrQ dataI zero h l).index)) := by
  induction h generalizing l with
  | zero =>
    have hReq : (firstLevel numIn reqD rrQ dataI zero l).req = true := hReq
    change _ = (gnt && decide (i = l * 2 + (firstLevel numIn reqD rrQ dataI zero l).index))
    rw [grants]
    by_cases hBoth : l * 2 < numIn - 1
    · rw [firstLevel_eq_join hBoth] at hReq
      have hChild := @req_of_sel _ _ _ (rrQ.testBit 0) hReq
      rw [if_pos hBoth, firstLevel_eq_join hBoth, join]
      dsimp only [leaf] at hChild ⊢
      rcases Bool.eq_false_or_eq_true (sel (reqD (l * 2)) (reqD (l * 2 + 1)) (rrQ.testBit 0)) with hSel | hSel
      · simp only [hSel, if_true] at hChild ⊢
        simp [hChild, Bool.and_comm]
      · simp only [hSel, if_neg Bool.false_ne_true] at hChild ⊢
        simp [hChild, Bool.and_comm]
    · rw [firstLevel, if_neg hBoth] at hReq ⊢
      rw [if_neg hBoth]
      split
      · next hLast =>
        rw [if_pos hLast] at hReq
        dsimp only at hReq
        rw [hReq, Bool.or_true, Bool.and_true, Bool.and_comm, Nat.add_zero]
      · next hNone =>
        rw [if_neg hNone] at hReq
        cases hReq
  | succ h ih =>
    have hLeft := @node_chooses _ numIn reqD rrQ dataI zero hPos h (l * 2)
    have hRight := @node_chooses _ numIn reqD rrQ dataI zero hPos h (l * 2 + 1)
    have hBase : l * 2 ^ (h + 1 + 1) = l * 2 * 2 ^ (h + 1) := by
      rw [Nat.pow_succ 2 (h + 1), Nat.mul_assoc, Nat.mul_comm 2]
    have hChild := @req_of_sel _ _ _ (rrQ.testBit (h + 1))
      (show ((node numIn reqD rrQ dataI zero h (l * 2)).req || (node numIn reqD rrQ dataI zero h (l * 2 + 1)).req) =
        true from hReq)
    rw [grants_succ, node_succ_eq_join hLeft hRight, hBase, join]
    dsimp only
    split
    · next hSel =>
      rw [if_pos hSel] at hChild
      rw [ih hChild, Nat.add_mul, Nat.one_mul, Nat.add_assoc]
    · next hSel =>
      rw [if_neg hSel] at hChild
      exact ih hChild

end Grants

end FPsPIN.RrArbTree
