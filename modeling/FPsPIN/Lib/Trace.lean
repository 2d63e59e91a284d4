import Mathlib.Data.List.Infix
import Mathlib.Logic.Function.Basic

/-!
# Sequences of actions

A system whose steps interleave is a partial step function: an action that is
not enabled has no successor. A run takes a list of actions, any list at all,
and ends in a state only if each of them was enabled.
-/

namespace FPsPIN.Trace

variable {State Action : Type*}

/-- The state after the actions, if all are enabled. -/
def run (step : State → Action → Option State) : State → List Action → Option State
  | s, [] => some s
  | s, a :: as => (step s a).bind fun s' => run step s' as

variable {step : State → Action → Option State}

theorem run_cons {s s' : State} {a : Action} {as : List Action} :
    run step s (a :: as) = some s' ↔ ∃ next, step s a = some next ∧ run step next as = some s' :=
  Option.bind_eq_some_iff

theorem run_append (s : State) (as bs : List Action) :
    run step s (as ++ bs) = (run step s as).bind fun s' => run step s' bs := by
  induction as generalizing s with
  | nil => rfl
  | cons a as ih =>
    simp only [List.cons_append, run, Option.bind_assoc]
    exact congrArg _ (funext ih)

theorem run_invariant (Inv : State → Prop) (hStep : ∀ s a s', Inv s → step s a = some s' → Inv s')
    {s s' : State} {as : List Action} (hInv : Inv s) (hRun : run step s as = some s') : Inv s' := by
  induction as generalizing s with
  | nil =>
    cases hRun
    exact hInv
  | cons a as ih =>
    obtain ⟨next, hNext, hRest⟩ := run_cons.mp hRun
    exact ih (hStep s a next hInv hNext) hRest

/-- Every action taken meets the condition in the state it is taken from. -/
def Along (step : State → Action → Option State) (Cond : State → Action → Prop) : State → List Action → Prop
  | _, [] => True
  | s, a :: as => ∀ s', step s a = some s' → Cond s a ∧ Along step Cond s' as

theorem along_cons {Cond : State → Action → Prop} {s s' : State} {a : Action} (hNext : step s a = some s')
    (as : List Action) : Along step Cond s (a :: as) ↔ Cond s a ∧ Along step Cond s' as := by
  constructor
  · exact fun h => h s' hNext
  · intro h next hStep
    cases hNext.symm.trans hStep
    exact h

instance Along.decidable {Cond : State → Action → Prop} [∀ s a, Decidable (Cond s a)] :
    ∀ (s : State) (as : List Action), Decidable (Along step Cond s as)
  | _, [] => isTrue trivial
  | s, a :: as =>
    match hNext : step s a with
    | none => isTrue fun _ hSome => nomatch hNext.symm.trans hSome
    | some s' =>
      have : Decidable (Along step Cond s' as) := Along.decidable s' as
      decidable_of_iff (Cond s a ∧ Along step Cond s' as) (along_cons hNext as).symm

/-- Where an action leads from a good state to a good state exactly under a condition, all states of
a run are good exactly if the condition is met along the run. -/
theorem along_iff {Inv Good : State → Prop} {Cond : State → Action → Prop}
    (hStep : ∀ s a s', Inv s → Good s → step s a = some s' → Inv s' ∧ (Good s' ↔ Cond s a))
    {s : State} (hInv : Inv s) (hGood : Good s) (as : List Action) :
    (∀ taken, taken <+: as → ∀ s', run step s taken = some s' → Good s') ↔ Along step Cond s as := by
  induction as generalizing s with
  | nil =>
    constructor
    · exact fun _ => trivial
    · rintro - taken hTaken s' hRun
      rw [List.prefix_nil.mp hTaken] at hRun
      cases hRun
      exact hGood
  | cons a as ih =>
    constructor
    · intro hAll next hNext
      obtain ⟨hInv', hIff⟩ := hStep s a next hInv hGood hNext
      have hGood' : Good next :=
        hAll [a] ((List.prefix_cons_inj a).mpr List.nil_prefix) next (run_cons.mpr ⟨next, hNext, rfl⟩)
      refine ⟨hIff.mp hGood', (ih hInv' hGood').mp fun taken hTaken s' hRun => ?_⟩
      exact hAll (a :: taken) ((List.prefix_cons_inj a).mpr hTaken) s' (run_cons.mpr ⟨next, hNext, hRun⟩)
    · intro hAlong taken hTaken s' hRun
      cases taken with
      | nil =>
        cases hRun
        exact hGood
      | cons b taken =>
        obtain ⟨rfl, hRest⟩ := List.cons_prefix_cons.mp hTaken
        obtain ⟨next, hNext, hRun⟩ := run_cons.mp hRun
        obtain ⟨hCond, hAlong⟩ := hAlong next hNext
        obtain ⟨hInv', hIff⟩ := hStep s b next hInv hGood hNext
        exact (ih hInv' (hIff.mpr hCond)).mpr hAlong taken hRest s' hRun

theorem along_invariant {Cond : State → Action → Prop} (Inv : State → Prop)
    (hStep : ∀ s a s', Inv s → Cond s a → step s a = some s' → Inv s') {s s' : State} {as : List Action}
    (hInv : Inv s) (hAlong : Along step Cond s as) (hRun : run step s as = some s') : Inv s' := by
  induction as generalizing s with
  | nil =>
    cases hRun
    exact hInv
  | cons a as ih =>
    obtain ⟨next, hNext, hRest⟩ := run_cons.mp hRun
    obtain ⟨hCond, hAlong⟩ := hAlong next hNext
    exact ih (hStep s a next hInv hCond hNext) hAlong hRest

theorem along_congr {Inv : State → Prop} {Cond Cond' : State → Action → Prop}
    (hIff : ∀ s a s', Inv s → step s a = some s' → (Cond s a ↔ Cond' s a))
    (hStep : ∀ s a s', Inv s → Cond s a → step s a = some s' → Inv s') {s : State} (hInv : Inv s)
    (as : List Action) : Along step Cond s as ↔ Along step Cond' s as := by
  induction as generalizing s with
  | nil => exact Iff.rfl
  | cons a as ih =>
    constructor
    · intro hAlong next hNext
      obtain ⟨hCond, hRest⟩ := hAlong next hNext
      exact ⟨(hIff s a next hInv hNext).mp hCond, (ih (hStep s a next hInv hCond hNext)).mp hRest⟩
    · intro hAlong next hNext
      obtain ⟨hCond', hRest⟩ := hAlong next hNext
      have hCond := (hIff s a next hInv hNext).mpr hCond'
      exact ⟨hCond, (ih (hStep s a next hInv hCond hNext)).mpr hRest⟩

theorem run_length_le (rank : State → Nat) (hStep : ∀ s a s', step s a = some s' → rank s' < rank s)
    {s s' : State} {as : List Action} (hRun : run step s as = some s') : as.length + rank s' ≤ rank s := by
  induction as generalizing s with
  | nil =>
    cases hRun
    exact Nat.le_of_eq (Nat.zero_add _)
  | cons a as ih =>
    obtain ⟨next, hNext, hRest⟩ := run_cons.mp hRun
    have hRank := hStep s a next hNext
    have hLength := ih hRest
    rw [List.length_cons]
    omega

theorem along_snoc {Cond : State → Action → Prop} {s s' : State} {as : List Action} {a : Action}
    (hAlong : Along step Cond s as) (hRun : run step s as = some s') (hCond : Cond s' a) :
    Along step Cond s (as ++ [a]) := by
  induction as generalizing s with
  | nil =>
    cases hRun
    exact fun _ _ => ⟨hCond, trivial⟩
  | cons b as ih =>
    obtain ⟨next, hNext, hRest⟩ := run_cons.mp hRun
    obtain ⟨hFirst, hAlong⟩ := (along_cons hNext as).mp hAlong
    exact (along_cons hNext _).mpr ⟨hFirst, ih hAlong hRest⟩

theorem exists_done {Cond : State → Action → Prop} {Done : State → Prop} {s : State} {bound : Nat}
    (hBound : ∀ as s', Along step Cond s as → run step s as = some s' → as.length ≤ bound)
    (hAdvance : ∀ as s', Along step Cond s as → run step s as = some s' → ¬ Done s' →
      ∃ a next, Cond s' a ∧ step s' a = some next) :
    ∃ as s', Along step Cond s as ∧ run step s as = some s' ∧ Done s' := by
  by_contra hNever
  have hLong : ∀ k, ∃ as s', Along step Cond s as ∧ run step s as = some s' ∧ as.length = k := by
    intro k
    induction k with
    | zero => exact ⟨[], s, trivial, rfl, rfl⟩
    | succ k ih =>
      obtain ⟨as, s', hAlong, hRun, hLength⟩ := ih
      have hNotDone : ¬ Done s' := fun hDone => hNever ⟨as, s', hAlong, hRun, hDone⟩
      obtain ⟨a, next, hCond, hNext⟩ := hAdvance as s' hAlong hRun hNotDone
      refine ⟨as ++ [a], next, along_snoc hAlong hRun hCond, ?_, ?_⟩
      · rw [run_append, hRun]
        exact run_cons.mpr ⟨next, hNext, rfl⟩
      · rw [List.length_append, hLength]
        rfl
  obtain ⟨as, s', hAlong, hRun, hLength⟩ := hLong (bound + 1)
  have hLe := hBound as s' hAlong hRun
  omega

section Family

variable {ι : Type*} [DecidableEq ι]

/-- Machines side by side: an action names the machine that takes it. -/
def interleave (step : ι → State → Action → Option State) (s : ι → State) (a : ι × Action) :
    Option (ι → State) :=
  (step a.1 (s a.1) a.2).map (Function.update s a.1)

theorem interleave_forall {step : ι → State → Action → Option State} {s s' : ι → State} {a : ι × Action}
    (hNext : interleave step s a = some s') (Inv : ι → State → Prop) (hInv : ∀ i, Inv i (s i))
    (hStep : ∀ next, step a.1 (s a.1) a.2 = some next → Inv a.1 next) : ∀ i, Inv i (s' i) := by
  obtain ⟨next, hOne, rfl⟩ := Option.map_eq_some_iff.mp hNext
  exact (Function.forall_update_iff s fun i c => Inv i c).mpr ⟨hStep next hOne, fun i _ => hInv i⟩

end Family

end FPsPIN.Trace
