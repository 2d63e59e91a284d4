import Mathlib.Data.List.Basic
import Mathlib.Data.Nat.Find

/-!
# Runs of a synchronous machine

A machine is a step function on its registers; a run is the sequence of
register values under an input stream, one input per clock cycle. Windows
collect what a run makes observable between two cycles, in cycle order.
-/

namespace FPsPIN.Run

variable {State Input Event : Type*}

/-- Registers at the start of cycle t. -/
def stateAt (step : State → Input → State) (init : State) (inputs : Nat → Input) : Nat → State
  | 0 => init
  | t + 1 => step (stateAt step init inputs t) (inputs t)

@[simp] theorem stateAt_zero (step : State → Input → State) (init : State) (inputs : Nat → Input) :
    stateAt step init inputs 0 = init := rfl

theorem stateAt_succ (step : State → Input → State) (init : State) (inputs : Nat → Input) (t : Nat) :
    stateAt step init inputs (t + 1) = step (stateAt step init inputs t) (inputs t) := rfl

/-- A part of a machine that steps by itself has a run of its own. -/
theorem part_stateAt {Part Input' : Type*} {step : State → Input → State} {init : State} {inputs : Nat → Input}
    {step' : Part → Input' → Part} (part : State → Part) (inputs' : Nat → Input')
    (h : ∀ t, part (step (stateAt step init inputs t) (inputs t)) =
      step' (part (stateAt step init inputs t)) (inputs' t)) (t : Nat) :
    part (stateAt step init inputs t) = stateAt step' (part init) inputs' t := by
  induction t with
  | zero => rfl
  | succ t ih => rw [stateAt_succ, stateAt_succ, h, ih]

/-- A run depends only on the inputs so far. -/
theorem stateAt_congr {step : State → Input → State} {init : State} {inputs inputs' : Nat → Input} {t : Nat}
    (h : ∀ u < t, inputs u = inputs' u) : stateAt step init inputs t = stateAt step init inputs' t := by
  induction t with
  | zero => rfl
  | succ t ih =>
    rw [stateAt_succ, stateAt_succ, ih (fun u hu => h u (Nat.lt_succ_of_lt hu)), h t (Nat.lt_succ_self t)]

/-- An inductive invariant under an assumption on every cycle holds along the whole run. -/
theorem invariant_stateAt {step : State → Input → State} {init : State} {inputs : Nat → Input}
    {Inv : State → Prop} {Env : State → Input → Prop} (hInit : Inv init)
    (hStep : ∀ s i, Inv s → Env s i → Inv (step s i))
    (hEnv : ∀ t, Env (stateAt step init inputs t) (inputs t)) (t : Nat) :
    Inv (stateAt step init inputs t) := by
  induction t with
  | zero => exact hInit
  | succ t ih => exact hStep _ _ ih (hEnv t)

/-- Events of the cycles a, a + 1, ..., b - 1. -/
def window (ev : Nat → List Event) (a : Nat) : Nat → List Event
  | 0 => []
  | b + 1 => if a ≤ b then window ev a b ++ ev b else []

theorem window_succ (ev : Nat → List Event) {a b : Nat} (h : a ≤ b) :
    window ev a (b + 1) = window ev a b ++ ev b := by
  rw [window, if_pos h]

theorem window_of_le (ev : Nat → List Event) {a b : Nat} (h : b ≤ a) : window ev a b = [] := by
  cases b with
  | zero => rfl
  | succ b => rw [window, if_neg (by omega)]

@[simp] theorem window_self (ev : Nat → List Event) (a : Nat) : window ev a a = [] :=
  window_of_le ev (Nat.le_refl a)

theorem window_append (ev : Nat → List Event) {a b c : Nat} (hab : a ≤ b) (hbc : b ≤ c) :
    window ev a b ++ window ev b c = window ev a c := by
  obtain ⟨d, rfl⟩ := Nat.exists_eq_add_of_le hbc
  induction d with
  | zero => simp
  | succ d ih =>
    rw [← Nat.add_assoc, window_succ ev (Nat.le_add_right b d), window_succ ev (by omega),
      ← List.append_assoc, ih (Nat.le_add_right b d)]

theorem window_mono (ev : Nat → List Event) {a b : Nat} (h : a ≤ b) : window ev 0 a <+: window ev 0 b :=
  ⟨window ev a b, window_append ev (Nat.zero_le a) h⟩

theorem window_congr {ev ev' : Nat → List Event} {a b : Nat}
    (h : ∀ t, a ≤ t → t < b → ev t = ev' t) : window ev a b = window ev' a b := by
  induction b with
  | zero => rfl
  | succ b ih =>
    by_cases hab : a ≤ b
    · rw [window_succ ev hab, window_succ ev' hab, ih (fun t hat htb => h t hat (by omega)),
        h b hab (by omega)]
    · rw [window_of_le ev (by omega), window_of_le ev' (by omega)]

theorem mem_window {ev : Nat → List Event} {a b : Nat} {e : Event} :
    e ∈ window ev a b ↔ ∃ t, a ≤ t ∧ t < b ∧ e ∈ ev t := by
  induction b with
  | zero => simp [window]
  | succ b ih =>
    by_cases hab : a ≤ b
    · rw [window_succ ev hab, List.mem_append, ih]
      constructor
      · rintro (⟨t, hat, htb, he⟩ | he)
        · exact ⟨t, hat, by omega, he⟩
        · exact ⟨b, hab, by omega, he⟩
      · rintro ⟨t, hat, htb, he⟩
        rcases Nat.lt_succ_iff_lt_or_eq.mp htb with htb | rfl
        · exact Or.inl ⟨t, hat, htb, he⟩
        · exact Or.inr he
    · rw [window_of_le ev (by omega)]
      constructor
      · intro he
        cases he
      · rintro ⟨t, hat, htb, _⟩
        omega

theorem window_eq_nil {ev : Nat → List Event} {a b : Nat} (h : ∀ t, a ≤ t → t < b → ev t = []) :
    window ev a b = [] := by
  rw [List.eq_nil_iff_forall_not_mem]
  intro e he
  obtain ⟨t, hat, htb, hMem⟩ := mem_window.mp he
  rw [h t hat htb] at hMem
  cases hMem

theorem window_flatMap {Event' : Type*} (ev : Nat → List Event) (f : Event → List Event') (a b : Nat) :
    (window ev a b).flatMap f = window (fun t => (ev t).flatMap f) a b := by
  induction b with
  | zero => rfl
  | succ b ih =>
    by_cases hab : a ≤ b
    · rw [window_succ _ hab, window_succ _ hab, List.flatMap_append, ih]
    · rw [window_of_le _ (by omega), window_of_le _ (by omega)]
      rfl

/-- The event with a given number belongs to the cycle in which the count reaches it. -/
theorem getElem?_window {ev : Nat → List Event} {b k : Nat} {e : Event} :
    (window ev 0 b)[k]? = some e ↔
      ∃ t < b, (window ev 0 t).length ≤ k ∧ (ev t)[k - (window ev 0 t).length]? = some e := by
  constructor
  · intro h
    induction b with
    | zero => cases h
    | succ b ih =>
      rw [window_succ ev (Nat.zero_le b)] at h
      rcases Nat.lt_or_ge k (window ev 0 b).length with hk | hk
      · rw [List.getElem?_append_left hk] at h
        obtain ⟨t, ht, hMem⟩ := ih h
        exact ⟨t, Nat.lt_succ_of_lt ht, hMem⟩
      · rw [List.getElem?_append_right hk] at h
        exact ⟨b, Nat.lt_succ_self b, hk, h⟩
  · rintro ⟨t, ht, hk, he⟩
    have hNext : (window ev 0 (t + 1))[k]? = some e := by
      rw [window_succ ev (Nat.zero_le t), List.getElem?_append_right hk]
      exact he
    obtain ⟨rest, hRest⟩ := window_mono ev (Nat.succ_le_of_lt ht)
    rw [← hRest]
    exact (List.getElem?_append_left (List.getElem?_eq_some_iff.mp hNext).1).trans hNext

theorem map_window {Event' : Type*} (ev : Nat → List Event) (f : Event → Event') (a b : Nat) :
    (window ev a b).map f = window (fun t => (ev t).map f) a b := by
  induction b with
  | zero => rfl
  | succ b ih =>
    by_cases hab : a ≤ b
    · rw [window_succ _ hab, window_succ _ hab, List.map_append, ih]
    · rw [window_of_le _ (by omega), window_of_le _ (by omega)]
      rfl

theorem filter_window (ev : Nat → List Event) (keep : Event → Bool) (a b : Nat) :
    (window ev a b).filter keep = window (fun t => (ev t).filter keep) a b := by
  induction b with
  | zero => rfl
  | succ b ih =>
    by_cases hab : a ≤ b
    · rw [window_succ _ hab, window_succ _ hab, List.filter_append, ih]
    · rw [window_of_le _ (by omega), window_of_le _ (by omega)]
      rfl

/-- A queue over a whole run: what has left and what is inside is what has come. -/
theorem window_append_queue {inn out : Nat → List Event} (queue : Nat → List Event) (hStart : queue 0 = [])
    (hStep : ∀ t, out t ++ queue (t + 1) = queue t ++ inn t) (t : Nat) :
    window out 0 t ++ queue t = window inn 0 t := by
  induction t with
  | zero => exact hStart
  | succ t ih =>
    rw [window_succ _ (Nat.zero_le t), window_succ _ (Nat.zero_le t), ← ih, List.append_assoc, hStep,
      List.append_assoc]

theorem length_window_add {Event' : Type*} {inn : Nat → List Event} {out : Nat → List Event'}
    (waiting : Nat → Nat)
    (hStart : waiting 0 = 0) (hStep : ∀ t, (out t).length + waiting (t + 1) = waiting t + (inn t).length) (t : Nat) :
    (window out 0 t).length + waiting t = (window inn 0 t).length := by
  induction t with
  | zero => rw [hStart]; rfl
  | succ t ih =>
    have hNext := hStep t
    rw [window_succ _ (Nat.zero_le t), window_succ _ (Nat.zero_le t), List.length_append, List.length_append]
    omega

/-- If what comes either has left or waits, and something leaves as long as something waits, then all that
comes leaves. -/
theorem exists_left {Event' : Type*} {inn : Nat → List Event} {out : Nat → List Event'} (waiting : Nat → Nat)
    (hLaw : ∀ t, (window out 0 t).length + waiting t = (window inn 0 t).length)
    (hServe : ∀ t, 0 < waiting t → ∃ u, t ≤ u ∧ out u ≠ []) {t n : Nat} (hn : n < (window inn 0 t).length) :
    ∃ u, n < (window out 0 u).length := by
  have hBefore : ∃ u, t ≤ u ∧ n ≤ (window out 0 u).length := by
    cases n with
    | zero => exact ⟨t, Nat.le_refl t, Nat.zero_le _⟩
    | succ n =>
      obtain ⟨u, hu⟩ := exists_left waiting hLaw hServe (Nat.lt_of_succ_lt hn)
      have hMono := (window_mono out (Nat.le_max_right t u)).length_le
      exact ⟨max t u, Nat.le_max_left t u, Nat.lt_of_lt_of_le hu hMono⟩
  obtain ⟨u, htu, hLe⟩ := hBefore
  rcases Nat.lt_or_eq_of_le hLe with hLt | hEq
  · exact ⟨u, hLt⟩
  have hCame := (window_mono inn htu).length_le
  have hWaiting : 0 < waiting u := by
    have hLawU := hLaw u
    omega
  obtain ⟨v, huv, hOut⟩ := hServe u hWaiting
  have hMono := (window_mono out huv).length_le
  have hPos := List.length_pos_iff.mpr hOut
  refine ⟨v + 1, ?_⟩
  rw [window_succ out (Nat.zero_le v), List.length_append]
  omega

/-- A queue that is served again and again loses nothing. -/
theorem queue_served {inn out : Nat → List Event} (queue : Nat → List Event) (hStart : queue 0 = [])
    (hStep : ∀ t, out t ++ queue (t + 1) = queue t ++ inn t)
    (hHelp : ∀ t, ∃ u, t ≤ u ∧ (queue u ≠ [] → out u ≠ [])) {t n : Nat}
    (hn : n < (window inn 0 t).length) :
    ∃ u, n < (window out 0 u).length := by
  refine exists_left (fun u => (queue u).length) (fun u => ?_) (fun u hWaiting => ?_) hn
  · rw [← window_append_queue queue hStart hStep u, List.length_append]
  · by_contra hNever
    push Not at hNever
    have hKept : ∀ v, u ≤ v → queue v ≠ [] := by
      intro v huv
      induction v, huv using Nat.le_induction with
      | base => exact List.length_pos_iff.mp hWaiting
      | succ v huv ih =>
        have hNext := hStep v
        rw [hNever v huv, List.nil_append] at hNext
        rw [hNext]
        exact List.append_ne_nil_of_left_ne_nil ih _
    obtain ⟨v, huv, hOut⟩ := hHelp u
    exact hOut (hKept v huv) (hNever v huv)

/-- What happens at all from cycle t on happens a first time. -/
theorem exists_first {P : Nat → Prop} {t : Nat} (h : ∃ u, t ≤ u ∧ P u) :
    ∃ u, t ≤ u ∧ P u ∧ ∀ v, t ≤ v → v < u → ¬ P v := by
  classical
  obtain ⟨hLe, hP⟩ := Nat.find_spec h
  exact ⟨Nat.find h, hLe, hP, fun v hv hLt hPv => Nat.find_min h hLt ⟨hv, hPv⟩⟩

theorem exists_leaving {Holds Leaves : Nat → Prop}
    (hStep : ∀ t, Holds t → ¬ Leaves t → Holds (t + 1)) {t : Nat}
    (hHolds : Holds t) (hLeaves : ∃ u, t ≤ u ∧ Leaves u) : ∃ u, t ≤ u ∧ Holds u ∧ Leaves u := by
  obtain ⟨u, htu, hLeave, hFirst⟩ := exists_first hLeaves
  have hUntil : ∀ v, t ≤ v → v ≤ u → Holds v := by
    intro v htv
    induction v, htv using Nat.le_induction with
    | base => exact fun _ => hHolds
    | succ v htv ih => exact fun hvu => hStep v (ih (Nat.le_of_succ_le hvu)) (hFirst v htv hvu)
  exact ⟨u, htu, hUntil u htu (Nat.le_refl u), hLeave⟩

theorem exists_entering (Holds : Nat → Prop) {Enters Leaves : Nat → Prop} (hStart : ¬ Holds 0)
    (hStep : ∀ t, Holds (t + 1) → Enters t ∨ Holds t ∧ ¬ Leaves t) {t : Nat} (hHolds : Holds t) :
    ∃ u < t, Enters u ∧ ∀ v, u < v → v < t → ¬ Leaves v := by
  induction t with
  | zero => exact absurd hHolds hStart
  | succ t ih =>
    rcases hStep t hHolds with hEnter | ⟨hBefore, hStays⟩
    · exact ⟨t, Nat.lt_succ_self t, hEnter, fun v huv hvt => by omega⟩
    · obtain ⟨u, hut, hEnter, hSince⟩ := ih hBefore
      refine ⟨u, Nat.lt_succ_of_lt hut, hEnter, fun v huv hvt => ?_⟩
      rcases Nat.lt_or_eq_of_le (Nat.le_of_lt_succ hvt) with hLt | rfl
      · exact hSince v huv hLt
      · exact hStays

theorem exists_length_window {ev : Nat → List Event} {t : Nat} (h : ∀ v, t ≤ v → ∃ u, v ≤ u ∧ ev u ≠ [])
    (n : Nat) :
    ∃ u, t ≤ u ∧ n ≤ (window ev t u).length := by
  induction n with
  | zero => exact ⟨t, Nat.le_refl t, Nat.zero_le _⟩
  | succ n ih =>
    obtain ⟨v, htv, hLength⟩ := ih
    obtain ⟨u, hvu, hSome⟩ := h v htv
    have htu := Nat.le_trans htv hvu
    refine ⟨u + 1, Nat.le_succ_of_le htu, ?_⟩
    have hPos := List.length_pos_iff.mpr hSome
    have hMono := congrArg List.length (window_append ev htv hvu)
    rw [List.length_append] at hMono
    rw [window_succ ev htu, List.length_append]
    omega

theorem length_window_le {Event' : Type*} {ev : Nat → List Event} {ev' : Nat → List Event'} {a b : Nat}
    (h : ∀ t, a ≤ t → t < b → (ev t).length ≤ (ev' t).length) :
    (window ev a b).length ≤ (window ev' a b).length := by
  induction b with
  | zero => exact Nat.zero_le _
  | succ b ih =>
    by_cases hab : a ≤ b
    · rw [window_succ ev hab, window_succ ev' hab, List.length_append, List.length_append]
      exact Nat.add_le_add (ih fun t hat htb => h t hat (Nat.lt_succ_of_lt htb)) (h b hab (Nat.lt_succ_self b))
    · rw [window_of_le ev (by omega)]
      exact Nat.zero_le _

/-- What is reached, or brought closer while still due, from every cycle in which it is due is reached. -/
theorem reached_of_closer (Due : Nat → Prop) {Goal : Nat → Prop} (distance : Nat → Nat)
    (h : ∀ t, Due t → ∃ u, t ≤ u ∧ (Goal u ∨ Due u ∧ distance u < distance t)) {t : Nat} (hDue : Due t) :
    ∃ u, t ≤ u ∧ Goal u := by
  induction hDistance : distance t using Nat.strong_induction_on generalizing t with
  | _ n ih =>
    obtain ⟨u, hLe, hGoal | ⟨hDue', hLt⟩⟩ := h t hDue
    · exact ⟨u, hLe, hGoal⟩
    · obtain ⟨v, hLe', hGoal⟩ := ih (distance u) (hDistance ▸ hLt) hDue' rfl
      exact ⟨v, Nat.le_trans hLe hLe', hGoal⟩

/-- A machine that only waits for inputs, each of which comes in the end, reaches the goal if every awaited input
lowers the rank. -/
theorem reached_of_fair {Wait : Type*} (Due : Nat → Prop) {Goal : Nat → Prop} (rank : Nat → Nat)
    (waitsFor : Nat → Wait) {gives : Nat → Wait → Prop}
    (hStep : ∀ t, Due t → Goal (t + 1) ∨ Due (t + 1) ∧ (rank (t + 1) < rank t ∨
      rank (t + 1) = rank t ∧ waitsFor (t + 1) = waitsFor t ∧ ¬ gives t (waitsFor t)))
    (hFair : ∀ w t, Due t → ∃ u, t ≤ u ∧ gives u w) {t : Nat} (hDue : Due t) : ∃ u, t ≤ u ∧ Goal u := by
  refine reached_of_closer Due rank (fun t hDue => ?_) hDue
  by_contra hNever
  have hKept : ∀ u, t ≤ u → Due u ∧ rank u = rank t ∧ waitsFor u = waitsFor t := by
    intro u htu
    induction u, htu using Nat.le_induction with
    | base => exact ⟨hDue, rfl, rfl⟩
    | succ u htu ih =>
      obtain ⟨hDueU, hRank, hWait⟩ := ih
      rcases hStep u hDueU with hGoal | ⟨hDueNext, hLt | ⟨hEq, hSame, _⟩⟩
      · exact absurd ⟨u + 1, Nat.le_succ_of_le htu, .inl hGoal⟩ hNever
      · exact absurd ⟨u + 1, Nat.le_succ_of_le htu, .inr ⟨hDueNext, hRank ▸ hLt⟩⟩ hNever
      · exact ⟨hDueNext, hEq.trans hRank, hSame.trans hWait⟩
  obtain ⟨u, htu, hGives⟩ := hFair (waitsFor t) t hDue
  obtain ⟨hDueU, hRank, hWait⟩ := hKept u htu
  rcases hStep u hDueU with hGoal | ⟨hDueNext, hLt | ⟨_, _, hNot⟩⟩
  · exact hNever ⟨u + 1, Nat.le_succ_of_le htu, .inl hGoal⟩
  · exact hNever ⟨u + 1, Nat.le_succ_of_le htu, .inr ⟨hDueNext, hRank ▸ hLt⟩⟩
  · exact hNot (hWait.symm ▸ hGives)

end FPsPIN.Run
