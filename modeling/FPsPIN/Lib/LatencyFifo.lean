import Mathlib.Data.List.Basic
import FPsPIN.Lib.Run

/-!
# A queue with output latency

A written word reaches the output a fixed number of cycles later, in order.
Each word carries its age: the number of cycles since it was written. A word
that is too young for the output cannot have been taken, so these are the words
written last, and the output shows a word exactly if the queue holds more.
-/

namespace FPsPIN.LatencyFifo

variable {Word : Type*}

abbrev Queue (Word : Type*) := List (Word × Nat)

def words (q : Queue Word) : List Word := q.map Prod.fst

def ready (depth : Nat) (q : Queue Word) : Bool := decide (q.length < depth)

/-- The word at the output, once it is old enough. -/
def output (latency : Nat) : Queue Word → Option Word
  | [] => none
  | (word, age) :: _ => if latency ≤ age then some word else none

def step (depth latency : Nat) (q : Queue Word) (enq : Option Word) (deqReady : Bool) : Queue Word :=
  ((if deqReady && (output latency q).isSome then q.tail else q).map (fun x => (x.1, x.2 + 1))) ++
    if ready depth q then (enq.map (fun word => (word, 1))).toList else []

@[simp] theorem length_words (q : Queue Word) : (words q).length = q.length := List.length_map _

theorem words_of_output {latency : Nat} {q : Queue Word} {word : Word} (h : output latency q = some word) :
    words q = word :: words q.tail := by
  cases q with
  | nil => cases h
  | cons x q =>
    rw [output, ite_eq_left_iff.mpr (fun hAge => by simp [hAge] at h)] at h
    rw [← Option.some.inj h]
    rfl

theorem words_step (depth latency : Nat) (q : Queue Word) (enq : Option Word) (deqReady : Bool) :
    words (step depth latency q enq deqReady) =
      words (if deqReady && (output latency q).isSome then q.tail else q) ++
        if ready depth q then enq.toList else [] := by
  rw [step, words, List.map_append, List.map_map]
  congr 1
  cases enq <;> cases ready depth q <;> rfl

theorem length_step (depth latency : Nat) (q : Queue Word) (enq : Option Word) (deqReady : Bool) :
    (step depth latency q enq deqReady).length + (deqReady && (output latency q).isSome).toNat =
      q.length + (ready depth q && enq.isSome).toNat := by
  rw [← length_words, words_step, List.length_append, length_words]
  have hTail : (if deqReady && (output latency q).isSome then q.tail else q).length +
      (deqReady && (output latency q).isSome).toNat = q.length := by
    cases hPop : deqReady && (output latency q).isSome with
    | false => rfl
    | true =>
      cases q with
      | nil => simp [output] at hPop
      | cons x q => rfl
  have hNew : (if ready depth q then enq.toList else []).length = (ready depth q && enq.isSome).toNat := by
    cases ready depth q <;> cases enq <;> rfl
  omega

def Waited (n : Nat) (q : Queue Word) : Prop := ∃ word age rest, q = (word, age) :: rest ∧ n ≤ age

theorem waited_zero {q : Queue Word} (h : words q ≠ []) : Waited 0 q := by
  cases q with
  | nil => exact absurd rfl h
  | cons x q => exact ⟨x.1, x.2, q, rfl, Nat.zero_le _⟩

theorem Waited.mono {m n : Nat} {q : Queue Word} (h : Waited n q) (hLe : m ≤ n) : Waited m q := by
  obtain ⟨word, age, rest, rfl, hAge⟩ := h
  exact ⟨word, age, rest, rfl, Nat.le_trans hLe hAge⟩

theorem Waited.output_isSome {latency : Nat} {q : Queue Word} (h : Waited latency q) :
    (output latency q).isSome = true := by
  obtain ⟨word, age, rest, rfl, hAge⟩ := h
  rw [output, if_pos hAge]
  rfl

theorem Waited.step {n depth latency : Nat} {q : Queue Word} {enq : Option Word} {deqReady : Bool}
    (h : Waited n q) (hKept : (deqReady && (output latency q).isSome) = false) :
    Waited (n + 1) (step depth latency q enq deqReady) := by
  obtain ⟨word, age, rest, rfl, hAge⟩ := h
  rw [LatencyFifo.step, hKept, if_neg Bool.false_ne_true]
  exact ⟨word, age + 1, _, rfl, Nat.succ_le_succ hAge⟩

section Young

/-- The number of words written in the last n cycles. -/
def young (n : Nat) (q : Queue Word) : Nat := q.countP fun x => decide (x.2 ≤ n)

structure Aged (q : Queue Word) : Prop where
  pos : ∀ x ∈ q, 0 < x.2
  order : q.Pairwise fun x y => y.2 ≤ x.2

variable {depth latency : Nat} {q : Queue Word}

theorem Aged.tail (h : Aged q) : Aged q.tail :=
  ⟨fun x hx => h.pos x (List.mem_of_mem_tail hx), h.order.tail⟩

theorem Aged.step (h : Aged q) (enq : Option Word) (deqReady : Bool) : Aged (step depth latency q enq deqReady) := by
  rw [LatencyFifo.step]
  set kept := if deqReady && (output latency q).isSome then q.tail else q with hKept
  have hAged : Aged kept := by
    rw [hKept]
    split
    · exact h.tail
    · exact h
  have hNew : ∀ x ∈ (if ready depth q then (enq.map fun word => (word, 1)).toList else []), x.2 = 1 := by
    intro x hx
    split at hx
    · obtain ⟨word, -, rfl⟩ := Option.map_eq_some_iff.mp (Option.mem_toList.mp hx)
      rfl
    · cases hx
  constructor
  · intro x hx
    rcases List.mem_append.mp hx with hx | hx
    · obtain ⟨y, -, rfl⟩ := List.mem_map.mp hx
      exact Nat.succ_pos _
    · rw [hNew x hx]
      exact Nat.one_pos
  · rw [List.pairwise_append, List.pairwise_map]
    refine ⟨hAged.order.imp Nat.succ_le_succ, ?_, ?_⟩
    · split
      · cases enq <;> simp
      · exact List.Pairwise.nil
    · intro x hx y hy
      obtain ⟨z, -, rfl⟩ := List.mem_map.mp hx
      rw [hNew y hy]
      exact Nat.succ_le_succ (Nat.zero_le _)

/-- The output shows a word if and only if not all words are too young for it. -/
theorem Aged.output_isSome_iff (h : Aged q) (hLatency : 0 < latency) :
    (output latency q).isSome = true ↔ young (latency - 1) q < q.length := by
  cases q with
  | nil => simp [output, young]
  | cons x q =>
    rw [output, young]
    split
    · next hOld =>
      rw [List.countP_cons_of_neg (by simp; omega), List.length_cons]
      exact iff_of_true rfl (Nat.lt_succ_of_le List.countP_le_length)
    · next hYoung =>
      have hAll : (x :: q).countP (fun y => decide (y.2 ≤ latency - 1)) = (x :: q).length := by
        rw [List.countP_eq_length]
        intro y hy
        have hAge : y.2 ≤ x.2 := by
          rcases List.mem_cons.mp hy with rfl | hy
          · exact Nat.le_refl _
          · exact (List.pairwise_cons.mp h.order).1 y hy
        exact decide_eq_true (by omega)
      rw [hAll]
      exact iff_of_false Bool.false_ne_true (Nat.lt_irrefl _)

/-- Words that are too young for the output are not taken. -/
theorem young_step {n : Nat} (hn : n < latency) (enq : Option Word) (deqReady : Bool) :
    young (n + 1) (step depth latency q enq deqReady) =
      young n q + (if ready depth q then enq.toList else []).length := by
  have hTaken : young n (if deqReady && (output latency q).isSome then q.tail else q) = young n q := by
    split
    · next hPop =>
      cases q with
      | nil => rfl
      | cons x q =>
        have hOld : latency ≤ x.2 := by
          by_contra hYoung
          rw [output, if_neg hYoung] at hPop
          simp at hPop
        rw [young, young, List.countP_cons_of_neg (by simp; omega)]
        rfl
    · rfl
  rw [← hTaken, young, young, LatencyFifo.step, List.countP_append, List.countP_map]
  congr 1
  · simp [Function.comp_def]
  · cases ready depth q <;> cases enq <;> simp

variable {q : Nat → Queue Word} {enq : Nat → Option Word} {deqReady : Nat → Bool} (hStart : q 0 = [])
  (hStep : ∀ t, q (t + 1) = step depth latency (q t) (enq t) (deqReady t))

include hStart hStep

theorem aged_run (t : Nat) : Aged (q t) := by
  induction t with
  | zero =>
    rw [hStart]
    exact ⟨List.forall_mem_nil _, List.Pairwise.nil⟩
  | succ t ih =>
    rw [hStep]
    exact ih.step _ _

theorem young_run {n : Nat} (hn : n < latency) (t : Nat) :
    young n (q t) =
      (Run.window (fun u => if ready depth (q u) then (enq u).toList else []) (t - n) t).length := by
  induction t generalizing n with
  | zero =>
    rw [hStart, Run.window_of_le _ (Nat.zero_le _)]
    rfl
  | succ t ih =>
    cases n with
    | zero =>
      rw [Nat.sub_zero, Run.window_self, young, List.length_nil, List.countP_eq_zero]
      intro x hx hZero
      have hPos := (aged_run hStart hStep (t + 1)).pos x hx
      have hZero := of_decide_eq_true hZero
      omega
    | succ n =>
      rw [hStep, young_step (Nat.lt_of_succ_lt hn), ih (Nat.lt_of_succ_lt hn), Nat.add_sub_add_right,
        Run.window_succ _ (Nat.sub_le t n), List.length_append]

end Young

end FPsPIN.LatencyFifo
