import FPsPIN.Lib.Run
import Mathlib.Data.Finset.Card
import Mathlib.Data.Finset.Range

/-!
# Causes and effects

Two ports of a system, each with its events, and a relation that links an event
of the first to the event of the second that it causes. In a matching every
effect has one cause and no event has two effects; in a total one every event
has an effect. A path through several blocks is a composition of matchings. An
event is named by the place and the cycle in which it occurs.
-/

namespace FPsPIN.Events

open Run

section Relation

variable {Place Place' Place'' A B C : Type*}

structure Matching (inn : Place → Option A) (out : Place' → Option B) (Agree : A → B → Prop)
    (Link : Place → Place' → Prop) : Prop where
  agree : ∀ {x y}, Link x y → ∃ a b, inn x = some a ∧ out y = some b ∧ Agree a b
  caused : ∀ {y b}, out y = some b → ∃ x, Link x y
  cause_unique : ∀ {x x' y}, Link x y → Link x' y → x = x'
  effect_unique : ∀ {x y y'}, Link x y → Link x y' → y = y'

def Total (inn : Place → Option A) (Link : Place → Place' → Prop) : Prop :=
  ∀ x a, inn x = some a → ∃ y, Link x y

variable {inn : Place → Option A} {mid : Place' → Option B} {out : Place'' → Option C}
variable {First : A → B → Prop} {Second : B → C → Prop} {Agree : A → C → Prop}
variable {LinkIn : Place → Place' → Prop} {LinkOut : Place' → Place'' → Prop}

theorem Matching.trans (hIn : Matching inn mid First LinkIn) (hOut : Matching mid out Second LinkOut)
    (hAgree : ∀ a b c, First a b → Second b c → Agree a c) :
    Matching inn out Agree (fun x z => ∃ y, LinkIn x y ∧ LinkOut y z) where
  agree := by
    rintro x z ⟨y, hxy, hyz⟩
    obtain ⟨a, b, hx, hy, hFirst⟩ := hIn.agree hxy
    obtain ⟨b', c, hy', hz, hSecond⟩ := hOut.agree hyz
    obtain rfl : b = b' := Option.some.inj (hy.symm.trans hy')
    exact ⟨a, c, hx, hz, hAgree a b c hFirst hSecond⟩
  caused := by
    intro z c hz
    obtain ⟨y, hyz⟩ := hOut.caused hz
    obtain ⟨b, _, hy, _, _⟩ := hOut.agree hyz
    obtain ⟨x, hxy⟩ := hIn.caused hy
    exact ⟨x, y, hxy, hyz⟩
  cause_unique := by
    rintro x x' z ⟨y, hxy, hyz⟩ ⟨y', hxy', hyz'⟩
    obtain rfl := hOut.cause_unique hyz hyz'
    exact hIn.cause_unique hxy hxy'
  effect_unique := by
    rintro x z z' ⟨y, hxy, hyz⟩ ⟨y', hxy', hyz'⟩
    obtain rfl := hIn.effect_unique hxy hxy'
    exact hOut.effect_unique hyz hyz'

theorem Matching.of_iff {Link : Place → Place' → Prop} (h : Matching inn mid First LinkIn)
    (hIff : ∀ x y, Link x y ↔ LinkIn x y) : Matching inn mid First Link where
  agree hLink := h.agree ((hIff _ _).mp hLink)
  caused hy := (h.caused hy).imp fun x hLink => (hIff x _).mpr hLink
  cause_unique hLink hLink' := h.cause_unique ((hIff _ _).mp hLink) ((hIff _ _).mp hLink')
  effect_unique hLink hLink' := h.effect_unique ((hIff _ _).mp hLink) ((hIff _ _).mp hLink')

theorem Total.trans (hMatch : Matching inn mid First LinkIn) (hIn : Total inn LinkIn) (hOut : Total mid LinkOut) :
    Total inn (fun x z => ∃ y, LinkIn x y ∧ LinkOut y z) := by
  intro x a hx
  obtain ⟨y, hxy⟩ := hIn x a hx
  obtain ⟨_, b, _, hy, _⟩ := hMatch.agree hxy
  obtain ⟨z, hyz⟩ := hOut y b hy
  exact ⟨z, y, hxy, hyz⟩

end Relation

section Ports

variable {Port Key A B : Type*} {Agree : A → B → Prop}

/-- A matching for each port is one for all ports together. -/
theorem Matching.ports {inn : Port → Nat → Option A} {out : Port → Nat → Option B}
    {Link : Port → Nat → Nat → Prop}
    (h : ∀ i, Matching (inn i) (out i) Agree (Link i)) :
    Matching (fun x : Port × Nat => inn x.1 x.2) (fun y : Port × Nat => out y.1 y.2) Agree
      (fun x y => x.1 = y.1 ∧ Link x.1 x.2 y.2) where
  agree := by
    rintro ⟨i, x⟩ ⟨_, y⟩ ⟨rfl, hLink⟩
    exact (h i).agree hLink
  caused := by
    rintro ⟨i, y⟩ b hy
    obtain ⟨x, hLink⟩ := (h i).caused hy
    exact ⟨⟨i, x⟩, rfl, hLink⟩
  cause_unique := by
    rintro ⟨i, x⟩ ⟨_, x'⟩ ⟨_, y⟩ ⟨rfl, hLink⟩ ⟨rfl, hLink'⟩
    exact Prod.ext rfl ((h _).cause_unique hLink hLink')
  effect_unique := by
    rintro ⟨i, x⟩ ⟨_, y⟩ ⟨_, y'⟩ ⟨rfl, hLink⟩ ⟨rfl, hLink'⟩
    exact Prod.ext rfl ((h _).effect_unique hLink hLink')

theorem Total.ports {inn : Port → Nat → Option A} {Link : Port → Nat → Nat → Prop}
    (h : ∀ i, Total (inn i) (Link i)) :
    Total (fun x : Port × Nat => inn x.1 x.2) (fun x y : Port × Nat => x.1 = y.1 ∧ Link x.1 x.2 y.2) := by
  rintro ⟨i, x⟩ a hx
  obtain ⟨y, hLink⟩ := h i x a hx
  exact ⟨⟨i, y⟩, rfl, hLink⟩

section Channels

variable {inn : Nat → Option A} {out : Nat → Option B} (key : A → Key) [DecidableEq Key]
variable {popped : Key → Nat → Option B} {Link : Key → Nat → Nat → Prop}

def channel (inn : Nat → Option A) (k : Key) (t : Nat) : Option A := (inn t).filter fun a => key a = k

variable {key}

theorem channel_eq_some {k : Key} {t : Nat} {a : A} :
    channel key inn k t = some a ↔ inn t = some a ∧ key a = k := by
  rw [channel, Option.filter_eq_some_iff, decide_eq_true_eq]

/-- A port whose events go through several channels, one in each cycle. -/
theorem Matching.channels (h : ∀ k, Matching (channel key inn k) (popped k) Agree (Link k))
    (hOut : ∀ t b, out t = some b ↔ ∃ k, popped k t = some b)
    (hOne : ∀ k k' t, popped k t ≠ none → popped k' t ≠ none → k = k') :
    Matching inn out Agree (fun x y => ∃ k, Link k x y) where
  agree := by
    rintro x y ⟨k, hLink⟩
    obtain ⟨a, b, hx, hy, hAgree⟩ := (h k).agree hLink
    exact ⟨a, b, (channel_eq_some.mp hx).1, (hOut y b).mpr ⟨k, hy⟩, hAgree⟩
  caused := by
    intro y b hy
    obtain ⟨k, hk⟩ := (hOut y b).mp hy
    obtain ⟨x, hLink⟩ := (h k).caused hk
    exact ⟨x, k, hLink⟩
  cause_unique := by
    rintro x x' y ⟨k, hLink⟩ ⟨k', hLink'⟩
    obtain ⟨_, b, _, hy, _⟩ := (h k).agree hLink
    obtain ⟨_, b', _, hy', _⟩ := (h k').agree hLink'
    obtain rfl : k = k' :=
      hOne k k' y (Option.ne_none_iff_exists'.mpr ⟨b, hy⟩) (Option.ne_none_iff_exists'.mpr ⟨b', hy'⟩)
    exact (h k).cause_unique hLink hLink'
  effect_unique := by
    rintro x y y' ⟨k, hLink⟩ ⟨k', hLink'⟩
    obtain ⟨a, _, hx, _, _⟩ := (h k).agree hLink
    obtain ⟨a', _, hx', _, _⟩ := (h k').agree hLink'
    obtain ⟨hIn, rfl⟩ := channel_eq_some.mp hx
    obtain ⟨hIn', rfl⟩ := channel_eq_some.mp hx'
    obtain rfl : a = a' := Option.some.inj (hIn.symm.trans hIn')
    exact (h _).effect_unique hLink hLink'

theorem Total.channels (h : ∀ k, Total (channel key inn k) (Link k)) :
    Total inn (fun x y => ∃ k, Link k x y) := by
  intro x a hx
  obtain ⟨y, hLink⟩ := h (key a) x a (channel_eq_some.mpr ⟨hx, rfl⟩)
  exact ⟨y, key a, hLink⟩

end Channels

end Ports

section Order

variable {A B : Type*}

theorem length_toList_eq {ev : Option A} {signal : Bool} (h : signal = true ↔ ev ≠ none) :
    ev.toList.length = signal.toNat := by
  cases ev with
  | none =>
    obtain rfl : signal = false := Bool.eq_false_iff.mpr fun hSignal => h.mp hSignal rfl
    rfl
  | some a => rw [h.mpr (Option.some_ne_none a)]; rfl

def eventsOf (ev : Nat → Option A) (t : Nat) : List A := window (fun u => (ev u).toList) 0 t

/-- Two events with the same number, the second not before the first. -/
def InOrder (inn : Nat → Option A) (out : Nat → Option B) (x y : Nat) : Prop :=
  x ≤ y ∧ inn x ≠ none ∧ out y ≠ none ∧ (eventsOf inn x).length = (eventsOf out y).length

/-- The events of the second port follow those of the first in order. -/
abbrev Follows (inn : Nat → Option A) (out : Nat → Option B) (Agree : A → B → Prop) : Prop :=
  Matching inn out Agree (InOrder inn out)

abbrev AllFollowed (inn : Nat → Option A) (out : Nat → Option B) : Prop := Total inn (InOrder inn out)

theorem eventsOf_succ (ev : Nat → Option A) (t : Nat) : eventsOf ev (t + 1) = eventsOf ev t ++ (ev t).toList :=
  window_succ _ (Nat.zero_le t)

theorem eventsOf_mono (ev : Nat → Option A) {t u : Nat} (h : t ≤ u) : eventsOf ev t <+: eventsOf ev u :=
  window_mono _ h

theorem eventsOf_of_silent {ev : Nat → Option A} {t u : Nat} (hSilent : ∀ v, t ≤ v → ev v = none)
    (h : t ≤ u) :
    eventsOf ev u = eventsOf ev t := by
  induction u, h using Nat.le_induction with
  | base => rfl
  | succ u h ih => rw [eventsOf_succ, hSilent u h, ih, Option.toList_none, List.append_nil]

theorem length_eventsOf_lt {ev : Nat → Option A} {t u : Nat} (hEv : ev t ≠ none) (h : t < u) :
    (eventsOf ev t).length < (eventsOf ev u).length := by
  obtain ⟨a, ha⟩ := Option.ne_none_iff_exists'.mp hEv
  have hMono := (eventsOf_mono ev (Nat.succ_le_of_lt h)).length_le
  rw [eventsOf_succ, ha, Option.toList_some, List.length_append, List.length_singleton] at hMono
  exact hMono

theorem eq_of_length_eventsOf {ev : Nat → Option A} {t u : Nat} (ht : ev t ≠ none) (hu : ev u ≠ none)
    (h : (eventsOf ev t).length = (eventsOf ev u).length) : t = u := by
  rcases Nat.lt_trichotomy t u with hLt | hEq | hLt
  · exact absurd h (Nat.ne_of_lt (length_eventsOf_lt ht hLt))
  · exact hEq
  · exact absurd h (Nat.ne_of_gt (length_eventsOf_lt hu hLt))

theorem getElem?_eventsOf {ev : Nat → Option A} {t u : Nat} {a : A} (ha : ev t = some a) (h : t < u) :
    (eventsOf ev u)[(eventsOf ev t).length]? = some a := by
  obtain ⟨rest, hRest⟩ := eventsOf_mono ev (Nat.succ_le_of_lt h)
  rw [← hRest, eventsOf_succ, ha, List.append_assoc, List.getElem?_append_right (Nat.le_refl _), Nat.sub_self]
  rfl

theorem exists_event {ev : Nat → Option A} {n t : Nat} (h : n < (eventsOf ev t).length) :
    ∃ x < t, ev x ≠ none ∧ (eventsOf ev x).length = n := by
  induction t with
  | zero => cases h
  | succ t ih =>
    rcases Nat.lt_or_ge n (eventsOf ev t).length with hLt | hGe
    · obtain ⟨x, hx, hEv⟩ := ih hLt
      exact ⟨x, Nat.lt_succ_of_lt hx, hEv⟩
    · rw [eventsOf_succ, List.length_append] at h
      cases hEv : ev t with
      | none =>
        rw [hEv] at h
        exact absurd h (Nat.not_lt_of_le hGe)
      | some a =>
        rw [hEv, Option.toList_some, List.length_singleton] at h
        exact ⟨t, Nat.lt_succ_self t, by rw [hEv]; exact Option.some_ne_none a, by omega⟩

theorem mem_eventsOf {ev : Nat → Option A} {t : Nat} {a : A} : a ∈ eventsOf ev t ↔ ∃ u < t, ev u = some a := by
  rw [eventsOf, mem_window]
  simp only [Nat.zero_le, true_and, Option.mem_toList]

theorem length_eventsOf_eq_card (ev : Nat → Option A) (t : Nat) :
    (eventsOf ev t).length = ((Finset.range t).filter fun u => (ev u).isSome).card := by
  induction t with
  | zero => rfl
  | succ t ih =>
    rw [eventsOf_succ, List.length_append, ih, Finset.range_add_one, Finset.filter_insert]
    cases ev t with
    | none => rfl
    | some a => exact (Finset.card_insert_of_notMem fun h =>
      Finset.notMem_range_self (Finset.mem_filter.mp h).1).symm

section Counts

variable {inn : Nat → Option A} {out : Nat → Option B} {Agree : A → B → Prop} {Link : Nat → Nat → Prop}

theorem Matching.length_le_of_causes (h : Matching inn out Agree Link) {t u : Nat}
    (hBefore : ∀ {x y}, Link x y → y < u → x < t) : (eventsOf out u).length ≤ (eventsOf inn t).length := by
  classical
  rw [length_eventsOf_eq_card, length_eventsOf_eq_card]
  have hCause : ∀ y, ∃ x, (out y).isSome → Link x y := by
    intro y
    cases hy : out y with
    | none => exact ⟨0, fun hSome => nomatch hSome⟩
    | some b =>
      obtain ⟨x, hLink⟩ := h.caused hy
      exact ⟨x, fun _ => hLink⟩
  choose cause hLink using hCause
  refine Finset.card_le_card_of_injOn cause (fun y hy => ?_) fun y hy y' hy' hEq => ?_
  · obtain ⟨hRange, hSome⟩ := Finset.mem_filter.mp hy
    obtain ⟨a, _, hIn, _, _⟩ := h.agree (hLink y hSome)
    have hLt := hBefore (hLink y hSome) (Finset.mem_range.mp hRange)
    exact Finset.mem_filter.mpr ⟨Finset.mem_range.mpr hLt, by rw [hIn]; rfl⟩
  · exact h.effect_unique (hLink y (Finset.mem_filter.mp hy).2) (hEq ▸ hLink y' (Finset.mem_filter.mp hy').2)

theorem Matching.length_le_of_effects (h : Matching inn out Agree Link) {t u : Nat}
    (hBefore : ∀ x < t, inn x ≠ none → ∃ y < u, Link x y) :
    (eventsOf inn t).length ≤ (eventsOf out u).length := by
  classical
  rw [length_eventsOf_eq_card, length_eventsOf_eq_card]
  have hEffect : ∀ x, ∃ y, x < t → inn x ≠ none → y < u ∧ Link x y := by
    intro x
    by_cases hx : x < t ∧ inn x ≠ none
    · obtain ⟨y, hy, hLink⟩ := hBefore x hx.1 hx.2
      exact ⟨y, fun _ _ => ⟨hy, hLink⟩⟩
    · exact ⟨0, fun hLt hSome => absurd ⟨hLt, hSome⟩ hx⟩
  choose effect hLink using hEffect
  have hLinked : ∀ x ∈ (Finset.range t).filter fun x => (inn x).isSome, effect x < u ∧ Link x (effect x) := by
    intro x hx
    obtain ⟨hRange, hSome⟩ := Finset.mem_filter.mp hx
    exact hLink x (Finset.mem_range.mp hRange) (Option.isSome_iff_ne_none.mp hSome)
  refine Finset.card_le_card_of_injOn effect (fun x hx => ?_) fun x hx x' hx' hEq => ?_
  · obtain ⟨_, b, _, hOut, _⟩ := h.agree (hLinked x hx).2
    exact Finset.mem_filter.mpr ⟨Finset.mem_range.mpr (hLinked x hx).1, by rw [hOut]; rfl⟩
  · exact h.cause_unique (hLinked x hx).2 (hEq ▸ (hLinked x' hx').2)

theorem Matching.length_le (h : Matching inn out Agree Link) (hLater : ∀ {x y}, Link x y → x ≤ y) (t : Nat) :
    (eventsOf out t).length ≤ (eventsOf inn t).length :=
  h.length_le_of_causes fun hLink hy => Nat.lt_of_le_of_lt (hLater hLink) hy

/-- In a total matching the effects reach any number of events. -/
theorem Matching.exists_length_le (h : Matching inn out Agree Link) (hTotal : Total inn Link) (t : Nat) :
    ∃ u, t ≤ u ∧ (eventsOf inn t).length ≤ (eventsOf out u).length := by
  have hEffects : ∃ u, t ≤ u ∧ ∀ x < t, inn x ≠ none → ∃ y < u, Link x y := by
    induction t with
    | zero => exact ⟨0, Nat.le_refl 0, fun x hx => absurd hx (Nat.not_lt_zero x)⟩
    | succ t ih =>
      obtain ⟨u, htu, hu⟩ := ih
      obtain ⟨v, hv⟩ : ∃ v, inn t ≠ none → Link t v := by
        cases ht : inn t with
        | none => exact ⟨0, fun hNe => absurd rfl hNe⟩
        | some a =>
          obtain ⟨v, hLink⟩ := hTotal t a ht
          exact ⟨v, fun _ => hLink⟩
      refine ⟨max u v + 1, by omega, fun x hx hNe => ?_⟩
      rcases Nat.lt_succ_iff_lt_or_eq.mp hx with hBefore | rfl
      · obtain ⟨y, hy, hLink⟩ := hu x hBefore hNe
        exact ⟨y, by omega, hLink⟩
      · exact ⟨v, by omega, hv hNe⟩
  obtain ⟨u, htu, hu⟩ := hEffects
  exact ⟨u, htu, h.length_le_of_effects hu⟩

/-- No event has its effect before that of an earlier one; in particular no event is passed over. -/
def NoOvertaking (inn : Nat → Option A) (Link : Nat → Nat → Prop) : Prop :=
  ∀ {x x' y'}, x < x' → inn x ≠ none → Link x' y' → ∃ y < y', Link x y

/-- Without overtaking, cause and effect have the same number. -/
theorem Matching.iff_inOrder (h : Matching inn out Agree Link) (hLater : ∀ {x y}, Link x y → x ≤ y)
    (hOrder : NoOvertaking inn Link) {x y : Nat} : Link x y ↔ InOrder inn out x y := by
  have hForth : ∀ {x y}, Link x y → InOrder inn out x y := by
    intro x y hLink
    obtain ⟨a, b, hx, hy, _⟩ := h.agree hLink
    have hNe : inn x ≠ none := Option.ne_none_iff_exists'.mpr ⟨a, hx⟩
    refine ⟨hLater hLink, hNe, Option.ne_none_iff_exists'.mpr ⟨b, hy⟩, Nat.le_antisymm ?_ ?_⟩
    · exact h.length_le_of_effects fun x' hx' hNe' => hOrder hx' hNe' hLink
    · refine h.length_le_of_causes fun {x' y'} hLink' hy' => ?_
      rcases Nat.lt_trichotomy x' x with hLt | rfl | hGt
      · exact hLt
      · exact absurd (h.effect_unique hLink' hLink) (Nat.ne_of_lt hy')
      · obtain ⟨z, hz, hLinkZ⟩ := hOrder hGt hNe hLink'
        obtain rfl := h.effect_unique hLink hLinkZ
        omega
  refine ⟨hForth, fun hInOrder => ?_⟩
  obtain ⟨_, hx, hy, hNumber⟩ := hInOrder
  obtain ⟨b, hb⟩ := Option.ne_none_iff_exists'.mp hy
  obtain ⟨x', hLink⟩ := h.caused hb
  obtain ⟨_, hx', _, hNumber'⟩ := hForth hLink
  obtain rfl := eq_of_length_eventsOf hx hx' (hNumber.trans hNumber'.symm)
  exact hLink

end Counts

/-- Events that are never more than those of the other port follow them in order. -/
theorem matching_of_le {inn : Nat → Option A} {out : Nat → Option B}
    (h : ∀ t, (eventsOf out t).length ≤ (eventsOf inn t).length) :
    Follows inn out (fun _ _ => True) where
  agree := by
    rintro x y ⟨_, hx, hy, _⟩
    obtain ⟨a, ha⟩ := Option.ne_none_iff_exists'.mp hx
    obtain ⟨b, hb⟩ := Option.ne_none_iff_exists'.mp hy
    exact ⟨a, b, ha, hb, trivial⟩
  caused := by
    intro y b hy
    have hNe : out y ≠ none := Option.ne_none_iff_exists'.mpr ⟨b, hy⟩
    have hCame := Nat.lt_of_lt_of_le (length_eventsOf_lt hNe (Nat.lt_succ_self y)) (h (y + 1))
    obtain ⟨x, hxy, hx, hLength⟩ := exists_event hCame
    exact ⟨x, Nat.le_of_lt_succ hxy, hx, hNe, hLength⟩
  cause_unique := by
    rintro x x' y ⟨_, hx, _, hLength⟩ ⟨_, hx', _, hLength'⟩
    exact eq_of_length_eventsOf hx hx' (hLength.trans hLength'.symm)
  effect_unique := by
    rintro x y y' ⟨_, _, hy, hLength⟩ ⟨_, _, hy', hLength'⟩
    exact eq_of_length_eventsOf hy hy' (hLength.symm.trans hLength')

theorem noOvertaking_inOrder {inn : Nat → Option A} {out : Nat → Option B}
    (h : ∀ t, (eventsOf out t).length ≤ (eventsOf inn t).length) : NoOvertaking inn (InOrder inn out) := by
  rintro x x' y' hxx' hx ⟨_, _, _, hNumber⟩
  obtain ⟨y, hy, hOut, hLength⟩ := exists_event (Nat.lt_of_lt_of_eq (length_eventsOf_lt hx hxx') hNumber)
  refine ⟨y, hy, ?_, hx, hOut, hLength.symm⟩
  have hCame := Nat.lt_of_lt_of_le (length_eventsOf_lt hOut (Nat.lt_succ_self y)) (h (y + 1))
  by_contra hLater
  have hMono := (eventsOf_mono inn (Nat.succ_le_of_lt (Nat.lt_of_not_le hLater))).length_le
  rw [Nat.succ_eq_add_one] at hMono
  omega

/-- An event between cause and effect, if there are never fewer causes than such events nor fewer of them than
effects. -/
theorem InOrder.split {C : Type*} {inn : Nat → Option A} {mid : Nat → Option B} {out : Nat → Option C} {x z : Nat}
    (hLink : InOrder inn out x z) (hIn : ∀ t, (eventsOf mid t).length ≤ (eventsOf inn t).length)
    (hOut : ∀ t, (eventsOf out t).length ≤ (eventsOf mid t).length) :
    ∃ y, InOrder inn mid x y ∧ InOrder mid out y z := by
  obtain ⟨_, hx, hz, hNumber⟩ := hLink
  obtain ⟨c, hc⟩ := Option.ne_none_iff_exists'.mp hz
  obtain ⟨y, hyz⟩ := (matching_of_le hOut).caused hc
  obtain ⟨b, _, hb, _, _⟩ := (matching_of_le hOut).agree hyz
  obtain ⟨x', hxy⟩ := (matching_of_le hIn).caused hb
  obtain rfl := eq_of_length_eventsOf hx hxy.2.1 (hNumber.trans (hyz.2.2.2.symm.trans hxy.2.2.2.symm))
  exact ⟨y, hxy, hyz⟩

theorem matching_of_prefix {inn : Nat → Option A} {out : Nat → Option B} (f : A → B)
    (h : ∀ t, eventsOf out t <+: (eventsOf inn t).map f) :
    Follows inn out (fun a b => b = f a) := by
  have hLe : Follows inn out (fun _ _ => True) :=
    matching_of_le fun t => List.length_map f ▸ (h t).length_le
  refine ⟨fun {x y} hLink => ?_, hLe.caused, hLe.cause_unique, hLe.effect_unique⟩
  obtain ⟨a, b, hx, hy, _⟩ := hLe.agree hLink
  refine ⟨a, b, hx, hy, ?_⟩
  obtain ⟨hxy, _, _, hLength⟩ := hLink
  obtain ⟨rest, hRest⟩ := h (y + 1)
  have hOut := getElem?_eventsOf hy (Nat.lt_succ_self y)
  have hNumber : (eventsOf out (y + 1) ++ rest)[(eventsOf out y).length]? = some (f a) := by
    rw [hRest, ← hLength, List.getElem?_map, getElem?_eventsOf hx (Nat.lt_succ_of_le hxy), Option.map_some]
  rw [List.getElem?_append_left (List.getElem?_eq_some_iff.mp hOut).1, hOut] at hNumber
  exact Option.some.inj hNumber

theorem total_of_served {inn : Nat → Option A} {out : Nat → Option B}
    (h : ∀ t, (eventsOf out t).length ≤ (eventsOf inn t).length)
    (hServed : ∀ {n t}, n < (eventsOf inn t).length → ∃ u, n < (eventsOf out u).length) :
    AllFollowed inn out := by
  intro x a hx
  have hNe : inn x ≠ none := Option.ne_none_iff_exists'.mpr ⟨a, hx⟩
  obtain ⟨u, hu⟩ := hServed (length_eventsOf_lt hNe (Nat.lt_succ_self x))
  obtain ⟨y, _, hy, hLength⟩ := exists_event hu
  refine ⟨y, ?_, hNe, hy, hLength.symm⟩
  by_contra hLater
  have hCame := Nat.lt_of_lt_of_le (length_eventsOf_lt hy (Nat.lt_succ_self y)) (h (y + 1))
  have hMono : (eventsOf inn (y + 1)).length ≤ (eventsOf inn x).length :=
    (eventsOf_mono inn (Nat.succ_le_of_lt (Nat.lt_of_not_le hLater))).length_le
  omega

theorem map_eventsOf (ev : Nat → Option A) (f : A → B) (t : Nat) :
    (eventsOf ev t).map f = eventsOf (fun u => (ev u).map f) t := by
  rw [eventsOf, map_window]
  exact window_congr fun u _ _ => Option.toList_map.symm

theorem inOrder_map {C : Type*} {inn : Nat → Option A} {out : Nat → Option C} {f : A → B} {x y : Nat} :
    InOrder (fun t => (inn t).map f) out x y ↔ InOrder inn out x y := by
  rw [InOrder, InOrder, ← map_eventsOf, List.length_map, ne_eq, Option.map_eq_none_iff]

section Queue

variable {inn : Nat → Option A} {out : Nat → Option B} (f : A → B) (queue : Nat → List B)
  (hStart : queue 0 = [])
variable (hStep : ∀ t, (out t).toList ++ queue (t + 1) = queue t ++ ((inn t).map f).toList)
include hStart hStep

theorem eventsOf_append_queue (t : Nat) : eventsOf out t ++ queue t = (eventsOf inn t).map f := by
  rw [map_eventsOf]
  exact window_append_queue queue hStart hStep t

theorem length_eventsOf_add_queue (t : Nat) :
    (eventsOf out t).length + (queue t).length = (eventsOf inn t).length := by
  rw [← List.length_append, eventsOf_append_queue f queue hStart hStep, List.length_map]

/-- What leaves a queue was there before the cycle. -/
theorem length_eventsOf_succ_le (hHead : ∀ t, out t ≠ none → queue t ≠ []) (t : Nat) :
    (eventsOf out (t + 1)).length ≤ (eventsOf inn t).length := by
  have hLaw := length_eventsOf_add_queue f queue hStart hStep t
  rw [eventsOf_succ, List.length_append]
  cases hOut : out t with
  | none =>
    rw [Option.toList_none, List.length_nil]
    omega
  | some b =>
    have hPos := List.length_pos_iff.mpr (hHead t (Option.ne_none_iff_exists'.mpr ⟨b, hOut⟩))
    rw [Option.toList_some, List.length_singleton]
    omega

/-- A queue that is served becomes empty when nothing more comes. -/
theorem eventually_empty (hServed : ∀ {n t}, n < (eventsOf inn t).length → ∃ u, n < (eventsOf out u).length)
    {t : Nat}
    (hSilent : ∀ v, t ≤ v → inn v = none) : ∃ u, t ≤ u ∧ ∀ v, u ≤ v → queue v = [] := by
  have hReached : ∃ u, t ≤ u ∧ (eventsOf inn t).length ≤ (eventsOf out u).length := by
    cases hCount : (eventsOf inn t).length with
    | zero => exact ⟨t, Nat.le_refl t, Nat.zero_le _⟩
    | succ n =>
      obtain ⟨u, hu⟩ := hServed (Nat.lt_of_lt_of_eq (Nat.lt_succ_self n) hCount.symm)
      have hMono := (eventsOf_mono out (Nat.le_max_right t u)).length_le
      exact ⟨max t u, Nat.le_max_left t u, Nat.le_trans hu hMono⟩
  obtain ⟨u, htu, hReached⟩ := hReached
  refine ⟨u, htu, fun v huv => List.length_eq_zero_iff.mp ?_⟩
  have hLaw := length_eventsOf_add_queue f queue hStart hStep v
  have hMono := (eventsOf_mono out huv).length_le
  rw [eventsOf_of_silent hSilent (Nat.le_trans htu huv)] at hLaw
  omega

theorem matching_of_queue : Follows inn out (fun a b => b = f a) :=
  matching_of_prefix f fun t => ⟨queue t, eventsOf_append_queue f queue hStart hStep t⟩

omit hStart in
theorem queue_prefix_of_silent {t u : Nat} (hSilent : ∀ v, t ≤ v → out v = none) (h : t ≤ u) :
    queue t <+: queue u := by
  induction u, h using Nat.le_induction with
  | base => exact List.prefix_rfl
  | succ u h ih =>
    have hNext := hStep u
    rw [hSilent u h, Option.toList_none, List.nil_append] at hNext
    exact ih.trans (hNext ▸ List.prefix_append _ _)

omit hStart in
theorem served_of_helped (hHelp : ∀ t, ∃ u, t ≤ u ∧ (queue u ≠ [] → out u ≠ none)) {t : Nat}
    (hQueue : queue t ≠ []) :
    ∃ u, t ≤ u ∧ out u ≠ none := by
  by_contra hNever
  push Not at hNever
  obtain ⟨u, htu, hOut⟩ := hHelp t
  obtain ⟨rest, hRest⟩ := queue_prefix_of_silent f queue hStep hNever htu
  refine hOut ?_ (hNever u htu)
  rw [← hRest]
  exact List.append_ne_nil_of_left_ne_nil hQueue rest

theorem exists_out_of_queue (hServe : ∀ t, queue t ≠ [] → ∃ u, t ≤ u ∧ out u ≠ none) {n t : Nat}
    (hn : n < (eventsOf inn t).length) : ∃ u, n < (eventsOf out u).length := by
  refine exists_left (fun u => (queue u).length) (length_eventsOf_add_queue f queue hStart hStep)
    (fun u hQueue => ?_) hn
  obtain ⟨v, huv, hOut⟩ := hServe u (List.length_pos_iff.mp hQueue)
  obtain ⟨b, hb⟩ := Option.ne_none_iff_exists'.mp hOut
  exact ⟨v, huv, by rw [hb]; exact List.cons_ne_nil b []⟩

theorem exists_out_of_helped (hHelp : ∀ t, ∃ u, t ≤ u ∧ (queue u ≠ [] → out u ≠ none)) {n t : Nat}
    (hn : n < (eventsOf inn t).length) : ∃ u, n < (eventsOf out u).length :=
  exists_out_of_queue f queue hStart hStep (fun _ => served_of_helped f queue hStep hHelp) hn

theorem total_of_queue (hServe : ∀ t, queue t ≠ [] → ∃ u, t ≤ u ∧ out u ≠ none) : AllFollowed inn out :=
  total_of_served
    (fun t => Nat.le_of_add_right_le (Nat.le_of_eq (length_eventsOf_add_queue f queue hStart hStep t)))
    (exists_out_of_queue f queue hStart hStep hServe)

end Queue

end Order

end FPsPIN.Events
