import Mathlib.Data.List.Forall2

/-!
# Streams cut into blocks

A block ends as soon as a test on its elements succeeds, so a stream is cut
into blocks in one way. Two streams that are related element by element are
cut at the same places if the test respects the relation.
-/

namespace FPsPIN.Blocks

open List

variable {α β : Type*} {R : α → β → Prop}

/-- The elements at the positions that both streams have are related. -/
def Agree (R : α → β → Prop) (xs : List α) (ys : List β) : Prop :=
  ∀ (k : Nat) x y, xs[k]? = some x → ys[k]? = some y → R x y

theorem Agree.of_prefixes {xs xs' : List α} {ys ys' : List β} (h : Agree R xs ys) (hx : xs' <+: xs)
    (hy : ys' <+: ys) :
    Agree R xs' ys' := by
  intro k x y hX hY
  obtain ⟨_, rfl⟩ := hx
  obtain ⟨_, rfl⟩ := hy
  apply h k x y
  · rw [getElem?_append_left (List.getElem?_eq_some_iff.mp hX).1, hX]
  · rw [getElem?_append_left (List.getElem?_eq_some_iff.mp hY).1, hY]

theorem Agree.behind {xs xs' : List α} {ys ys' : List β} (h : Agree R (xs ++ xs') (ys ++ ys'))
    (hLength : xs.length = ys.length) : Agree R xs' ys' := by
  intro k x y hX hY
  apply h (xs.length + k) x y
  · rw [getElem?_append_right (Nat.le_add_right _ _), Nat.add_sub_cancel_left, hX]
  · rw [hLength, getElem?_append_right (Nat.le_add_right _ _), Nat.add_sub_cancel_left, hY]

theorem Agree.forall₂ {xs : List α} {ys : List β} (h : Agree R xs ys) (hLength : xs.length = ys.length) :
    Forall₂ R xs ys := by
  refine forall₂_iff_get.mpr ⟨hLength, fun k hX hY => h k _ _ ?_ ?_⟩
  · exact getElem?_eq_getElem hX
  · exact getElem?_eq_getElem hY

/-- The test succeeds for the whole block and for no proper beginning of it. -/
structure IsBlock (complete : List α → Bool) (xs : List α) : Prop where
  unfinished : ∀ k < xs.length, complete (xs.take k) = false
  complete : complete xs = true

section Cutting

variable {completeX : List α → Bool} {completeY : List β → Bool}
  (hComplete : ∀ xs ys, Forall₂ R xs ys → completeX xs = completeY ys)
include hComplete

/-- A test that respects the relation ends two related blocks at the same place. -/
theorem IsBlock.length_eq {xs : List α} {ys : List β} (hX : IsBlock completeX xs) (hY : IsBlock completeY ys)
    (h : Agree R xs ys) : xs.length = ys.length := by
  rcases Nat.lt_trichotomy xs.length ys.length with hLt | hEq | hGt
  · have hTake : take xs.length ys <+: ys := take_prefix xs.length ys
    have hPart := (h.of_prefixes (prefix_refl xs) hTake).forall₂ (by simp [Nat.le_of_lt hLt])
    have hEnds := hComplete _ _ hPart
    rw [hX.complete, hY.unfinished _ hLt] at hEnds
    cases hEnds
  · exact hEq
  · have hTake : take ys.length xs <+: xs := take_prefix ys.length xs
    have hPart := (h.of_prefixes hTake (prefix_refl ys)).forall₂ (by simp [Nat.le_of_lt hGt])
    have hEnds := hComplete _ _ hPart
    rw [hY.complete, hX.unfinished _ hGt] at hEnds
    cases hEnds

/-- Related streams have related blocks. -/
theorem forall₂_of_blocks {xss : List (List α)} {yss : List (List β)} (hX : ∀ xs ∈ xss, IsBlock completeX xs)
    (hY : ∀ ys ∈ yss, IsBlock completeY ys) (h : Agree R xss.flatten yss.flatten) {m : Nat} {xs : List α}
    {ys : List β}
    (hXs : xss[m]? = some xs) (hYs : yss[m]? = some ys) : Forall₂ R xs ys := by
  induction xss generalizing yss m with
  | nil => cases hXs
  | cons first xss ih =>
    cases yss with
    | nil => cases hYs
    | cons first' yss =>
      have hFirst := h.of_prefixes (prefix_append first xss.flatten) (prefix_append first' yss.flatten)
      have hLength := IsBlock.length_eq hComplete (hX _ mem_cons_self) (hY _ mem_cons_self) hFirst
      cases m with
      | zero =>
        obtain rfl := Option.some.inj hXs
        obtain rfl := Option.some.inj hYs
        exact hFirst.forall₂ hLength
      | succ m =>
        exact ih (fun xs hxs => hX xs (mem_cons_of_mem first hxs))
          (fun ys hys => hY ys (mem_cons_of_mem first' hys))
          (h.behind hLength) hXs hYs

end Cutting

end FPsPIN.Blocks
