import Mathlib.Data.List.Basic
import Mathlib.Logic.Function.Basic

/-!
# Linked queues over one pool of cells

Several queues thread their elements through one shared array of cells.
Each cell holds a successor index and an end mark; each queue holds its
first and last cell and an emptiness flag. Fields of cells outside every
queue are unconstrained: stale pointers of released cells are harmless.
-/

namespace FPsPIN.LinkedQueues

variable {Cell Queue : Type*}

/-- The listed cells form one chain: only the last one carries the end mark. -/
def Linked (next : Cell → Cell) (isLast : Cell → Bool) : List Cell → Prop
  | [] => True
  | [c] => isLast c = true
  | c :: d :: rest => isLast c = false ∧ next c = d ∧ Linked next isLast (d :: rest)

theorem Linked.tail {next : Cell → Cell} {isLast : Cell → Bool} {c : Cell} {rest : List Cell}
    (h : Linked next isLast (c :: rest)) : Linked next isLast rest := by
  cases rest with
  | nil => trivial
  | cons d rest => exact h.2.2

theorem Linked.isLast_head {next : Cell → Cell} {isLast : Cell → Bool} {c : Cell} {rest : List Cell}
    (h : Linked next isLast (c :: rest)) : isLast c = rest.isEmpty := by
  cases rest with
  | nil => exact h
  | cons d rest => exact h.1

theorem Linked.next_head {next : Cell → Cell} {isLast : Cell → Bool} {c d : Cell} {rest : List Cell}
    (h : Linked next isLast (c :: d :: rest)) : next c = d := h.2.1

theorem Linked.frame {next next' : Cell → Cell} {isLast isLast' : Cell → Bool} {cells : List Cell}
    (h : Linked next isLast cells) (hNext : ∀ c ∈ cells, next' c = next c)
    (hLast : ∀ c ∈ cells, isLast' c = isLast c) : Linked next' isLast' cells := by
  induction cells with
  | nil => trivial
  | cons c rest ih =>
    have hRest := ih h.tail (fun d hd => hNext d (List.mem_cons_of_mem c hd))
      (fun d hd => hLast d (List.mem_cons_of_mem c hd))
    cases rest with
    | nil => exact (hLast c List.mem_cons_self).trans h
    | cons d rest =>
      exact ⟨(hLast c List.mem_cons_self).trans h.1, (hNext c List.mem_cons_self).trans h.2.1, hRest⟩

/-- Linking a new cell d behind the last cell c of a chain. -/
theorem Linked.snoc {next next' : Cell → Cell} {isLast isLast' : Cell → Bool}
    {cells : List Cell} {c d : Cell} (h : Linked next isLast (cells ++ [c]))
    (hNext : ∀ x ∈ cells, next' x = next x) (hLast : ∀ x ∈ cells, isLast' x = isLast x)
    (hc : next' c = d) (hcLast : isLast' c = false) (hd : isLast' d = true) :
    Linked next' isLast' (cells ++ [c, d]) := by
  induction cells with
  | nil => exact ⟨hcLast, hc, hd⟩
  | cons x rest ih =>
    have hRest := ih h.tail (fun y hy => hNext y (List.mem_cons_of_mem x hy))
      (fun y hy => hLast y (List.mem_cons_of_mem x hy))
    have hxNext := hNext x List.mem_cons_self
    have hxLast := hLast x List.mem_cons_self
    cases rest with
    | nil => exact ⟨hxLast.trans h.1, hxNext.trans h.2.1, hRest⟩
    | cons y rest => exact ⟨hxLast.trans h.1, hxNext.trans h.2.1, hRest⟩

/-- The cells met from c on up to the end mark, as long as there is fuel. -/
def follow (next : Cell → Cell) (isLast : Cell → Bool) : Nat → Cell → List Cell
  | 0, _ => []
  | fuel + 1, c => c :: if isLast c then [] else follow next isLast fuel (next c)

theorem Linked.follow_eq {next : Cell → Cell} {isLast : Cell → Bool} {c : Cell} {rest : List Cell}
    (h : Linked next isLast (c :: rest)) {fuel : Nat} (hFuel : rest.length < fuel) :
    follow next isLast fuel c = c :: rest := by
  induction rest generalizing c fuel with
  | nil =>
    obtain ⟨fuel, rfl⟩ := Nat.exists_eq_succ_of_ne_zero (Nat.ne_zero_of_lt hFuel)
    rw [follow, h.isLast_head]
    rfl
  | cons d rest ih =>
    obtain ⟨fuel, rfl⟩ := Nat.exists_eq_succ_of_ne_zero (Nat.ne_zero_of_lt hFuel)
    rw [follow, h.isLast_head, h.next_head, ih h.tail (Nat.lt_of_succ_lt_succ hFuel)]
    rfl

structure Pointers (Cell Queue : Type*) where
  next : Cell → Cell
  isLast : Cell → Bool
  head : Queue → Cell
  last : Queue → Cell
  empty : Queue → Bool

def Pointers.push [DecidableEq Cell] [DecidableEq Queue] (p : Pointers Cell Queue) (q : Queue) (c : Cell) :
    Pointers Cell Queue :=
  if p.empty q then
    { p with
      isLast := Function.update p.isLast c true
      head := Function.update p.head q c
      last := Function.update p.last q c
      empty := Function.update p.empty q false }
  else
    { p with
      next := Function.update p.next (p.last q) c
      isLast := Function.update (Function.update p.isLast c true) (p.last q) false
      last := Function.update p.last q c }

def Pointers.pop [DecidableEq Queue] (p : Pointers Cell Queue) (q : Queue) : Pointers Cell Queue :=
  { p with
    head := Function.update p.head q (p.next (p.head q))
    empty := Function.update p.empty q (p.isLast (p.head q)) }

/-- Separation invariant: the queues are the given disjoint chains. -/
structure Chains (p : Pointers Cell Queue) (cells : Queue → List Cell) : Prop where
  linked : ∀ q, Linked p.next p.isLast (cells q)
  head : ∀ q c rest, cells q = c :: rest → p.head q = c
  last : ∀ q rest c, cells q = rest ++ [c] → p.last q = c
  empty : ∀ q, p.empty q = (cells q).isEmpty
  nodup : ∀ q, (cells q).Nodup
  separate : ∀ q q', q ≠ q' → ∀ c ∈ cells q, c ∉ cells q'

theorem Chains.init {p : Pointers Cell Queue} (h : ∀ q, p.empty q = true) :
    Chains p (fun _ => []) where
  linked _ := trivial
  head _ _ _ hc := by cases hc
  last _ rest _ hc := by cases rest <;> cases hc
  empty := h
  nodup _ := List.nodup_nil
  separate _ _ _ _ hc := by cases hc

def Pointers.cellsOf (p : Pointers Cell Queue) (fuel : Nat) (q : Queue) : List Cell :=
  if p.empty q then [] else follow p.next p.isLast fuel (p.head q)

theorem Chains.cellsOf_eq {p : Pointers Cell Queue} {cells : Queue → List Cell} (h : Chains p cells) {fuel : Nat}
    {q : Queue} (hFuel : (cells q).length ≤ fuel) : p.cellsOf fuel q = cells q := by
  rw [Pointers.cellsOf, h.empty]
  cases hCells : cells q with
  | nil => rfl
  | cons c rest =>
    have hLinked := h.linked q
    rw [hCells] at hLinked hFuel
    rw [h.head q c rest hCells]
    exact hLinked.follow_eq hFuel

theorem Chains.pop [DecidableEq Queue] {p : Pointers Cell Queue} {cells : Queue → List Cell} (h : Chains p cells)
    {q : Queue} {c : Cell} {rest : List Cell} (hq : cells q = c :: rest) :
    Chains (p.pop q) (Function.update cells q rest) := by
  have hHead := h.head q c rest hq
  have hLinked := h.linked q
  have hNodup := h.nodup q
  rw [hq] at hLinked hNodup
  have hSub : ∀ r, ∀ d ∈ Function.update cells q rest r, d ∈ cells r := by
    intro r d hd
    by_cases hr : r = q
    · subst r
      rw [Function.update_self] at hd
      exact hq ▸ List.mem_cons_of_mem c hd
    · rwa [Function.update_of_ne hr] at hd
  refine ⟨fun r => ?_, fun r d tail hr => ?_, fun r front d hr => ?_, fun r => ?_, fun r => ?_,
    fun r r' hne d hd hd' => h.separate r r' hne d (hSub r d hd) (hSub r' d hd')⟩
  all_goals by_cases hrq : r = q
  · subst r
    simpa [Pointers.pop] using hLinked.tail
  · simpa [Pointers.pop, Function.update_of_ne hrq] using h.linked r
  · subst r
    rw [Function.update_self] at hr
    rw [hr] at hLinked
    simpa [Pointers.pop, hHead] using hLinked.next_head
  · rw [Function.update_of_ne hrq] at hr
    simpa [Pointers.pop, Function.update_of_ne hrq] using h.head r d tail hr
  · subst r
    rw [Function.update_self] at hr
    exact h.last q (c :: front) d (by rw [hq, hr]; rfl)
  · rw [Function.update_of_ne hrq] at hr
    exact h.last r front d hr
  · subst r
    simpa [Pointers.pop, hHead] using hLinked.isLast_head
  · simpa [Pointers.pop, Function.update_of_ne hrq] using h.empty r
  · subst r
    rw [Function.update_self]
    exact (List.nodup_cons.mp hNodup).2
  · rw [Function.update_of_ne hrq]
    exact h.nodup r

theorem Chains.push_empty [DecidableEq Cell] [DecidableEq Queue] {p : Pointers Cell Queue}
    {cells : Queue → List Cell} (h : Chains p cells) {q : Queue} {c : Cell}
    (hq : cells q = []) (hFresh : ∀ r, c ∉ cells r) :
    Chains (p.push q c) (Function.update cells q [c]) := by
  have hEmpty : p.empty q = true := by rw [h.empty, hq]; rfl
  have hPush : p.push q c =
      { p with
        isLast := Function.update p.isLast c true
        head := Function.update p.head q c
        last := Function.update p.last q c
        empty := Function.update p.empty q false } := by
    rw [Pointers.push, if_pos hEmpty]
  rw [hPush]
  refine ⟨fun r => ?_, fun r d tail hr => ?_, fun r front d hr => ?_, fun r => ?_, fun r => ?_,
    fun r r' hne d hd hd' => ?_⟩
  · by_cases hrq : r = q
    · subst r
      simp [Linked]
    · rw [Function.update_of_ne hrq]
      refine (h.linked r).frame (fun _ _ => rfl) (fun d hd => ?_)
      exact Function.update_of_ne (fun hdc : d = c => hFresh r (hdc ▸ hd)) _ _
  · by_cases hrq : r = q
    · subst r
      simp_all
    · simpa [Function.update_of_ne hrq] using h.head r d tail (by simpa [Function.update_of_ne hrq] using hr)
  · by_cases hrq : r = q
    · subst r
      rw [Function.update_self] at hr
      cases front with
      | nil => simpa using hr
      | cons x front => simp at hr
    · simpa [Function.update_of_ne hrq] using h.last r front d (by simpa [Function.update_of_ne hrq] using hr)
  · by_cases hrq : r = q
    · subst r
      simp
    · simpa [Function.update_of_ne hrq] using h.empty r
  · by_cases hrq : r = q
    · subst r
      simp
    · simpa [Function.update_of_ne hrq] using h.nodup r
  · by_cases hrq : r = q
    · subst r
      rw [Function.update_self, List.mem_singleton] at hd
      rw [Function.update_of_ne (Ne.symm hne)] at hd'
      exact hFresh r' (hd ▸ hd')
    · rw [Function.update_of_ne hrq] at hd
      by_cases hrq' : r' = q
      · subst r'
        rw [Function.update_self, List.mem_singleton] at hd'
        exact hFresh r (hd' ▸ hd)
      · rw [Function.update_of_ne hrq'] at hd'
        exact h.separate r r' hne d hd hd'

theorem Chains.push_snoc [DecidableEq Cell] [DecidableEq Queue] {p : Pointers Cell Queue}
    {cells : Queue → List Cell} (h : Chains p cells) {q : Queue} {front : List Cell} {l c : Cell}
    (hq : cells q = front ++ [l]) (hFresh : ∀ r, c ∉ cells r) :
    Chains (p.push q c) (Function.update cells q (front ++ [l, c])) := by
  have hEmpty : ¬ p.empty q = true := by rw [h.empty, hq]; simp
  have hLast : p.last q = l := h.last q front l hq
  have hPush : p.push q c =
      { p with
        next := Function.update p.next l c
        isLast := Function.update (Function.update p.isLast c true) l false
        last := Function.update p.last q c } := by
    rw [Pointers.push, if_neg hEmpty, hLast]
  have hNodup := h.nodup q
  rw [hq] at hNodup
  have hlFront : ∀ x ∈ front, x ≠ l := fun x hx => by
    rw [List.nodup_append] at hNodup
    exact hNodup.2.2 x hx l (by simp)
  have hlMem : l ∈ cells q := by rw [hq]; simp
  have hcl : c ≠ l := fun hcl => hFresh q (hcl ▸ hlMem)
  have hcFront : ∀ x ∈ front, x ≠ c := fun x hx hxc =>
    hFresh q (by rw [hq, ← hxc]; exact List.mem_append_left _ hx)
  rw [hPush]
  refine ⟨fun r => ?_, fun r d tail hr => ?_, fun r front' d hr => ?_, fun r => ?_, fun r => ?_,
    fun r r' hne d hd hd' => ?_⟩
  · by_cases hrq : r = q
    · subst r
      rw [Function.update_self]
      have hLinked := h.linked q
      rw [hq] at hLinked
      refine hLinked.snoc (fun x hx => ?_) (fun x hx => ?_) ?_ ?_ ?_
      · exact Function.update_of_ne (hlFront x hx) _ _
      · change Function.update (Function.update p.isLast c true) l false x = p.isLast x
        rw [Function.update_of_ne (hlFront x hx), Function.update_of_ne (hcFront x hx)]
      · exact Function.update_self _ _ _
      · exact Function.update_self _ _ _
      · change Function.update (Function.update p.isLast c true) l false c = true
        rw [Function.update_of_ne hcl, Function.update_self]
    · rw [Function.update_of_ne hrq]
      have hlr : ∀ x ∈ cells r, x ≠ l := fun x hx hxl => h.separate r q hrq x hx (hxl ▸ hlMem)
      refine (h.linked r).frame (fun x hx => ?_) (fun x hx => ?_)
      · exact Function.update_of_ne (hlr x hx) _ _
      · change Function.update (Function.update p.isLast c true) l false x = p.isLast x
        rw [Function.update_of_ne (hlr x hx), Function.update_of_ne (fun hxc : x = c => hFresh r (hxc ▸ hx))]
  · by_cases hrq : r = q
    · subst r
      rw [Function.update_self] at hr
      cases front with
      | nil =>
        simp only [List.nil_append, List.cons.injEq] at hr hq
        exact h.head q d [] (by rw [hq, hr.1])
      | cons x front =>
        simp only [List.cons_append, List.cons.injEq] at hr hq
        exact h.head q d _ (by rw [hq, hr.1])
    · rw [Function.update_of_ne hrq] at hr
      exact h.head r d tail hr
  · by_cases hrq : r = q
    · subst r
      rw [Function.update_self] at hr
      have hLast' := congrArg List.getLast? hr
      simp only [List.getLast?_append, List.getLast?_cons_cons, List.getLast?_singleton,
        Option.some_or, Option.some.injEq] at hLast'
      simpa using hLast'
    · rw [Function.update_of_ne hrq] at hr
      simpa [Function.update_of_ne hrq] using h.last r front' d hr
  · by_cases hrq : r = q
    · subst r
      rw [Function.update_self]
      change p.empty q = _
      rw [h.empty, hq]
      cases front <;> rfl
    · simpa [Function.update_of_ne hrq] using h.empty r
  · by_cases hrq : r = q
    · subst r
      rw [Function.update_self, ← List.singleton_append, ← List.append_assoc, ← hq, List.nodup_append]
      refine ⟨h.nodup q, by simp, fun x hx y hy hxy => ?_⟩
      rw [List.mem_singleton] at hy
      exact hFresh q (by rw [← hy, ← hxy]; exact hx)
    · rw [Function.update_of_ne hrq]
      exact h.nodup r
  · have hMem : ∀ r, ∀ x ∈ Function.update cells q (front ++ [l, c]) r, x ∈ cells r ∨ (r = q ∧ x = c) := by
      intro r x hx
      by_cases hrq : r = q
      · subst r
        rw [Function.update_self, ← List.singleton_append, ← List.append_assoc, ← hq,
          List.mem_append, List.mem_singleton] at hx
        exact hx.imp_right fun hxc => ⟨rfl, hxc⟩
      · rw [Function.update_of_ne hrq] at hx
        exact Or.inl hx
    rcases hMem r d hd with hd | ⟨rfl, rfl⟩ <;> rcases hMem r' d hd' with hd' | ⟨hr', hdc⟩
    · exact h.separate r r' hne d hd hd'
    · exact hFresh r (hdc ▸ hd)
    · exact hFresh r' hd'
    · exact hne hr'.symm

theorem Chains.push [DecidableEq Cell] [DecidableEq Queue] {p : Pointers Cell Queue}
    {cells : Queue → List Cell} (h : Chains p cells) {q : Queue} {c : Cell}
    (hFresh : ∀ r, c ∉ cells r) :
    Chains (p.push q c) (Function.update cells q (cells q ++ [c])) := by
  rcases List.eq_nil_or_concat (cells q) with hq | ⟨front, l, hq⟩
  · rw [hq]
    exact h.push_empty hq hFresh
  · rw [List.concat_eq_append] at hq
    rw [hq, List.append_assoc]
    exact h.push_snoc hq hFresh

end FPsPIN.LinkedQueues
