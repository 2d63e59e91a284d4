import Mathlib.Algebra.BigOperators.Group.List.Basic
import Mathlib.Algebra.GroupWithZero.Nat
import Mathlib.Data.List.Nodup
import Mathlib.Logic.Function.Basic
import Mathlib.Tactic.IntervalCases

/-!
# The register compiler

The script regs-compiler.py lays out the registers that the driver and the
register file share. It numbers the words when a subgroup is created, gives a
register that is wider than a word one expanded subgroup for each word of it,
and places the expanded subgroups of a group one behind the other in a window
of 4 KiB. The decoder of the register file finds a group by its window and adds
the word offset to the number of the first subgroup.

The numbers and the addresses come from different passes. They agree because
both run through the same words in the same order.
-/

namespace FPsPIN.RegsCompiler

section Compiler

/-- A register subgroup as it is listed; a width of zero counts as one word. -/
structure SubGroup where
  readonly : Bool
  count : Nat
  signalWidth : Nat := 32
deriving DecidableEq

def SubGroup.numWords (sg : SubGroup) : Nat := if sg.signalWidth = 0 then 1 else (sg.signalWidth + 31) / 32

/-- The glb_idx of subgroups that are created one after the other. -/
def allocate (nextAlloc : Nat) : List SubGroup → List (SubGroup × Nat)
  | [] => []
  | sg :: sgs => (sg, nextAlloc) :: allocate (nextAlloc + sg.count * sg.numWords) sgs

def allocated (nextAlloc : Nat) (sgs : List SubGroup) : Nat :=
  sgs.foldl (fun next sg => next + sg.count * sg.numWords) nextAlloc

/-- A subgroup of single words. -/
structure Expanded where
  readonly : Bool
  count : Nat
  glbIdx : Nat
deriving DecidableEq

def expand (sg : SubGroup) (glbIdx : Nat) : List Expanded :=
  if 1 < sg.numWords then
    (List.range sg.numWords).map fun idx => ⟨sg.readonly, sg.count, glbIdx + idx * sg.count⟩
  else [⟨sg.readonly, sg.count, glbIdx⟩]

/-- An expanded subgroup with its parent and base. -/
structure Located extends Expanded where
  grpid : Nat
  base : Nat
deriving DecidableEq

def locate (grpid curBase : Nat) : List Expanded → List Located
  | [] => []
  | sg :: sgs => ⟨sg, grpid, curBase⟩ :: locate grpid (curBase + sg.count * 4) sgs

/-- The groups, created one after the other. -/
def compileFrom (grpid nextAlloc : Nat) : List (List SubGroup) → List Located
  | [] => []
  | sgs :: groups =>
    locate grpid 0 ((allocate nextAlloc sgs).flatMap fun sg => expand sg.1 sg.2) ++
      compileFrom (grpid + 1) (allocated nextAlloc sgs) groups

def compile (groups : List (List SubGroup)) : List Located := compileFrom 0 0 groups

/-- Method get_base_addr, which raises an error for a base outside the window. -/
def Located.getBaseAddr (sg : Located) : Option Nat :=
  if 2 ^ 12 ≤ sg.base then none else some (sg.grpid * 2 ^ 12 + sg.base)

def numRegs (sgs : List Located) : Nat := (sgs.map fun sg => sg.count).sum

/-- The register words: elements of the expanded subgroups. -/
def words (sgs : List Located) : List (Located × Nat) :=
  sgs.flatMap fun sg => (List.range sg.count).map fun i => (sg, i)

def index (w : Located × Nat) : Nat := w.1.glbIdx + w.2

/-- The address that the driver uses, get_base_addr and four bytes for each element. -/
def address (w : Located × Nat) : Nat := w.1.grpid * 2 ^ 12 + w.1.base + 4 * w.2

end Compiler

section Decoder

/-- The BASE and REG_OFF parameters of the subgroups. -/
def labels (sgs : List Located) : Option (List (BitVec 16 × Nat)) :=
  sgs.mapM fun sg => sg.getBaseAddr.map fun base => (BitVec.ofNat 16 base, sg.glbIdx)

def regfileIdxInvalid : BitVec 14 := BitVec.allOnes 14

/-- The address decoder: the first label that matches the block counts. -/
def decode (labels : List (BitVec 16 × Nat)) (addr : BitVec 16) : BitVec 14 :=
  let blockId := addr &&& 0xf000#16
  let blockOffset := addr &&& 0x0fff#16
  match labels.find? fun label => label.1 == blockId with
  | some label => BitVec.ofNat 14 (label.2 + blockOffset.toNat / 4)
  | none => regfileIdxInvalid

end Decoder

section Numbers

/-- Subgroups whose numbers follow each other without a gap. -/
def Consecutive : Nat → List Expanded → Prop
  | _, [] => True
  | n, sg :: sgs => sg.glbIdx = n ∧ Consecutive (n + sg.count) sgs

def size (sgs : List Expanded) : Nat := (sgs.map fun sg => sg.count).sum

@[simp] theorem size_cons (sg : Expanded) (sgs : List Expanded) : size (sg :: sgs) = sg.count + size sgs :=
  List.sum_cons

theorem size_append (xs ys : List Expanded) : size (xs ++ ys) = size xs + size ys := by
  rw [size, List.map_append, List.sum_append]
  rfl

theorem consecutive_append {n : Nat} {xs ys : List Expanded} :
    Consecutive n (xs ++ ys) ↔ Consecutive n xs ∧ Consecutive (n + size xs) ys := by
  induction xs generalizing n with
  | nil => exact (and_iff_right trivial).symm
  | cons x xs ih =>
    rw [List.cons_append, Consecutive, Consecutive, ih, size_cons, Nat.add_assoc, and_assoc]

theorem consecutive_children (readonly : Bool) (count glbIdx m : Nat) :
    Consecutive glbIdx ((List.range m).map fun idx => ⟨readonly, count, glbIdx + idx * count⟩) ∧
      size ((List.range m).map fun idx => ⟨readonly, count, glbIdx + idx * count⟩) = m * count := by
  induction m with
  | zero => exact ⟨trivial, (Nat.zero_mul count).symm⟩
  | succ m ih =>
    rw [List.range_succ, List.map_append, consecutive_append, size_append, ih.2, Nat.succ_mul]
    exact ⟨⟨ih.1, rfl, trivial⟩, rfl⟩

theorem numWords_pos (sg : SubGroup) : 0 < sg.numWords := by
  rw [SubGroup.numWords]
  split <;> omega

theorem consecutive_expand (sg : SubGroup) (glbIdx : Nat) :
    Consecutive glbIdx (expand sg glbIdx) ∧ size (expand sg glbIdx) = sg.count * sg.numWords := by
  rw [expand]
  split
  · rw [Nat.mul_comm]
    exact consecutive_children ..
  · have hOne : sg.numWords = 1 := by
      have hPos := numWords_pos sg
      omega
    rw [hOne, Nat.mul_one]
    exact ⟨⟨rfl, trivial⟩, rfl⟩

theorem allocated_cons (nextAlloc : Nat) (sg : SubGroup) (sgs : List SubGroup) :
    allocated nextAlloc (sg :: sgs) = allocated (nextAlloc + sg.count * sg.numWords) sgs := rfl

theorem consecutive_allocate (nextAlloc : Nat) (sgs : List SubGroup) :
    Consecutive nextAlloc ((allocate nextAlloc sgs).flatMap fun sg => expand sg.1 sg.2) ∧
      nextAlloc + size ((allocate nextAlloc sgs).flatMap fun sg => expand sg.1 sg.2) =
        allocated nextAlloc sgs := by
  induction sgs generalizing nextAlloc with
  | nil => exact ⟨trivial, rfl⟩
  | cons sg sgs ih =>
    obtain ⟨hFirst, hSize⟩ := consecutive_expand sg nextAlloc
    obtain ⟨hRest, hNext⟩ := ih (nextAlloc + sg.count * sg.numWords)
    rw [allocate, List.flatMap_cons, consecutive_append, size_append, hSize, allocated_cons, ← hNext]
    exact ⟨⟨hFirst, hRest⟩, (Nat.add_assoc ..).symm⟩

end Numbers

section Places

/-- A subgroup lies as many words behind the start of its group as its number does. -/
def Aligned (start : Nat) (sg : Located) : Prop := ∃ s, sg.glbIdx = start + s ∧ sg.base = 4 * s

theorem locate_aligned {grpid start : Nat} {sgs : List Expanded} {s : Nat}
    (hNumbers : Consecutive (start + s) sgs) :
    ∀ sg ∈ locate grpid (4 * s) sgs, sg.grpid = grpid ∧ Aligned start sg := by
  induction sgs generalizing s with
  | nil => exact fun _ hMem => nomatch hMem
  | cons x xs ih =>
    obtain ⟨hFirst, hRest⟩ := hNumbers
    rw [Nat.add_assoc] at hRest
    have hBase : 4 * s + x.count * 4 = 4 * (s + x.count) := by omega
    rw [locate, hBase]
    intro sg hMem
    rcases List.mem_cons.mp hMem with rfl | hMem
    · exact ⟨rfl, s, hFirst, rfl⟩
    · exact ih hRest sg hMem

theorem map_toExpanded_locate (grpid curBase : Nat) (sgs : List Expanded) :
    (locate grpid curBase sgs).map Located.toExpanded = sgs := by
  induction sgs generalizing curBase with
  | nil => rfl
  | cons x xs ih => rw [locate, List.map_cons, ih]

theorem exists_base_zero {grpid : Nat} {sgs : List Expanded} {sg : Located} (hMem : sg ∈ locate grpid 0 sgs) :
    ∃ first ∈ locate grpid 0 sgs, first.grpid = grpid ∧ first.base = 0 := by
  cases sgs with
  | nil => exact nomatch hMem
  | cons x xs => exact ⟨_, List.mem_cons_self, rfl, rfl⟩

/-- What the compiler produces: the group of each subgroup, its place there, and a first subgroup in it. -/
structure WellPlaced (start : Nat → Nat) (grpid bound : Nat) (sgs : List Located) : Prop where
  group : ∀ sg ∈ sgs, grpid ≤ sg.grpid ∧ sg.grpid < bound
  aligned : ∀ sg ∈ sgs, Aligned (start sg.grpid) sg
  first : ∀ sg ∈ sgs, ∃ first ∈ sgs, first.grpid = sg.grpid ∧ first.base = 0

theorem WellPlaced.append {start : Nat → Nat} {grpid bound : Nat} {xs ys : List Located}
    (hxs : WellPlaced start grpid bound xs) (hys : WellPlaced start grpid bound ys) :
    WellPlaced start grpid bound (xs ++ ys) := by
  constructor
  · exact List.forall_mem_append.mpr ⟨hxs.group, hys.group⟩
  · exact List.forall_mem_append.mpr ⟨hxs.aligned, hys.aligned⟩
  · intro sg hMem
    rcases List.mem_append.mp hMem with hMem | hMem
    · obtain ⟨first, hFirst, hPlace⟩ := hxs.first sg hMem
      exact ⟨first, List.mem_append_left _ hFirst, hPlace⟩
    · obtain ⟨first, hFirst, hPlace⟩ := hys.first sg hMem
      exact ⟨first, List.mem_append_right _ hFirst, hPlace⟩

theorem wellPlaced_locate {start : Nat → Nat} {grpid bound : Nat} {sgs : List Expanded} (hBound : grpid < bound)
    (hNumbers : Consecutive (start grpid) sgs) : WellPlaced start grpid bound (locate grpid 0 sgs) := by
  have hPlaces : ∀ sg ∈ locate grpid (4 * 0) sgs, sg.grpid = grpid ∧ Aligned (start grpid) sg :=
    locate_aligned hNumbers
  constructor
  · intro sg hMem
    rw [(hPlaces sg hMem).1]
    exact ⟨Nat.le_refl _, hBound⟩
  · intro sg hMem
    rw [(hPlaces sg hMem).1]
    exact (hPlaces sg hMem).2
  · intro sg hMem
    rw [(hPlaces sg hMem).1]
    exact exists_base_zero hMem

theorem WellPlaced.later {start : Nat → Nat} {grpid bound : Nat} {sgs : List Located} (n : Nat)
    (h : WellPlaced start (grpid + 1) bound sgs) :
    WellPlaced (Function.update start grpid n) grpid bound sgs := by
  refine ⟨fun sg hMem => ⟨?_, (h.group sg hMem).2⟩, ?_, h.first⟩
  · exact Nat.le_of_succ_le (h.group sg hMem).1
  · intro sg hMem
    rw [Function.update_of_ne (Nat.ne_of_gt (h.group sg hMem).1)]
    exact h.aligned sg hMem

theorem compileFrom_wellPlaced (grpid nextAlloc : Nat) (groups : List (List SubGroup)) :
    ∃ start, WellPlaced start grpid (grpid + groups.length) (compileFrom grpid nextAlloc groups) := by
  induction groups generalizing grpid nextAlloc with
  | nil =>
    refine ⟨fun _ => 0, ?_⟩
    constructor <;> rintro sg ⟨⟩
  | cons sgs groups ih =>
    obtain ⟨start, hRest⟩ := ih (grpid + 1) (allocated nextAlloc sgs)
    have hBound : grpid + 1 + groups.length = grpid + (sgs :: groups).length := by
      rw [List.length_cons]
      omega
    rw [hBound] at hRest
    refine ⟨Function.update start grpid nextAlloc, (wellPlaced_locate ?_ ?_).append (hRest.later nextAlloc)⟩
    · rw [List.length_cons]
      omega
    · rw [Function.update_self]
      exact (consecutive_allocate nextAlloc sgs).1

theorem map_index_words {n : Nat} {sgs : List Located} (hNumbers : Consecutive n (sgs.map Located.toExpanded)) :
    (words sgs).map index = List.range' n (numRegs sgs) := by
  induction sgs generalizing n with
  | nil => rfl
  | cons sg sgs ih =>
    obtain ⟨hFirst, hRest⟩ := hNumbers
    have hHead : ((List.range sg.count).map fun i => (sg, i)).map index = List.range' n sg.count := by
      rw [List.map_map, List.range'_eq_map_range]
      exact List.map_congr_left fun i _ => congrArg (· + i) hFirst
    have hWords : words (sg :: sgs) = ((List.range sg.count).map fun i => (sg, i)) ++ words sgs :=
      List.flatMap_cons ..
    have hRegs : numRegs (sg :: sgs) = sg.count + numRegs sgs := List.sum_cons
    rw [hWords, List.map_append, hHead, ih hRest, hRegs, ← List.range'_append_1]

theorem compileFrom_consecutive (grpid nextAlloc : Nat) (groups : List (List SubGroup)) :
    Consecutive nextAlloc ((compileFrom grpid nextAlloc groups).map Located.toExpanded) := by
  induction groups generalizing grpid nextAlloc with
  | nil => trivial
  | cons sgs groups ih =>
    obtain ⟨hGroup, hNext⟩ := consecutive_allocate nextAlloc sgs
    rw [compileFrom, List.map_append, map_toExpanded_locate, consecutive_append, hNext]
    exact ⟨hGroup, ih (grpid + 1) _⟩

theorem mem_allocate {nextAlloc : Nat} {sgs : List SubGroup} {x : SubGroup × Nat}
    (hMem : x ∈ allocate nextAlloc sgs) : x.1 ∈ sgs := by
  induction sgs generalizing nextAlloc with
  | nil => exact nomatch hMem
  | cons sg sgs ih =>
    rcases List.mem_cons.mp hMem with rfl | hMem
    · exact List.mem_cons_self
    · exact List.mem_cons_of_mem _ (ih hMem)

theorem count_of_mem_expand {sg : SubGroup} {glbIdx : Nat} {x : Expanded} (hMem : x ∈ expand sg glbIdx) :
    x.count = sg.count := by
  rw [expand] at hMem
  split at hMem
  · obtain ⟨idx, -, rfl⟩ := List.mem_map.mp hMem
    rfl
  · rw [List.mem_singleton.mp hMem]

theorem mem_compileFrom {grpid nextAlloc : Nat} {groups : List (List SubGroup)} {sg : Located}
    (hMem : sg ∈ compileFrom grpid nextAlloc groups) :
    ∃ sgs ∈ groups, ∃ source ∈ sgs, sg.count = source.count := by
  induction groups generalizing grpid nextAlloc with
  | nil => exact nomatch hMem
  | cons sgs groups ih =>
    rcases List.mem_append.mp hMem with hMem | hMem
    · have hExpanded := List.mem_map_of_mem (f := Located.toExpanded) hMem
      rw [map_toExpanded_locate] at hExpanded
      obtain ⟨x, hx, hSg⟩ := List.mem_flatMap.mp hExpanded
      exact ⟨sgs, List.mem_cons_self, x.1, mem_allocate hx, count_of_mem_expand hSg⟩
    · obtain ⟨sgs', hGroup, hSource⟩ := ih hMem
      exact ⟨sgs', List.mem_cons_of_mem _ hGroup, hSource⟩

end Places

section Agreement

variable {groups : List (List SubGroup)} {w w' : Located × Nat}

/-- A description that the address decoder can tell apart. -/
structure Fits (groups : List (List SubGroup)) : Prop where
  length : groups.length ≤ 16
  regs : numRegs (compile groups) < 2 ^ 14
  window : ∀ w ∈ words (compile groups), w.1.base + 4 * w.2 < 2 ^ 12

theorem mem_words {sgs : List Located} : w ∈ words sgs ↔ w.1 ∈ sgs ∧ w.2 < w.1.count := by
  constructor
  · intro hMem
    obtain ⟨sg, hSg, hWord⟩ := List.mem_flatMap.mp hMem
    obtain ⟨i, hi, rfl⟩ := List.mem_map.mp hWord
    exact ⟨hSg, List.mem_range.mp hi⟩
  · rintro ⟨hSg, hi⟩
    exact List.mem_flatMap.mpr ⟨w.1, hSg, List.mem_map.mpr ⟨w.2, List.mem_range.mpr hi, rfl⟩⟩

theorem map_index_compile (groups : List (List SubGroup)) :
    (words (compile groups)).map index = List.range (numRegs (compile groups)) := by
  rw [List.range_eq_range']
  exact map_index_words (compileFrom_consecutive 0 0 groups)

theorem index_lt (hMem : w ∈ words (compile groups)) : index w < numRegs (compile groups) := by
  rw [← List.mem_range, ← map_index_compile]
  exact List.mem_map_of_mem hMem

theorem word_eq_of_index_eq (hw : w ∈ words (compile groups)) (hw' : w' ∈ words (compile groups))
    (h : index w = index w') : w = w' := by
  have hIndices : ((words (compile groups)).map index).Nodup := by
    rw [map_index_compile]
    exact List.nodup_range
  exact List.inj_on_of_nodup_map hIndices hw hw' h

theorem exists_start (hFits : Fits groups) : ∃ start : Nat → Nat, WellPlaced start 0 16 (compile groups) ∧
    ∀ w ∈ words (compile groups), ∃ s, s < 1024 ∧ address w = w.1.grpid * 4096 + 4 * s ∧
      index w = start w.1.grpid + s := by
  obtain ⟨start, hPlaced⟩ := compileFrom_wellPlaced 0 0 groups
  refine ⟨start, ⟨?_, hPlaced.aligned, hPlaced.first⟩, ?_⟩
  · intro sg hMem
    have hBound := (hPlaced.group sg hMem).2
    have hGroups := hFits.length
    exact ⟨Nat.zero_le _, by omega⟩
  · intro w hMem
    obtain ⟨s, hIndex, hBase⟩ := hPlaced.aligned w.1 (mem_words.mp hMem).1
    have hWindow := hFits.window w hMem
    refine ⟨s + w.2, by omega, ?_, ?_⟩
    · rw [address, hBase]
      omega
    · rw [index, hIndex, Nat.add_assoc]

theorem index_eq_of_address_eq (hFits : Fits groups) (hw : w ∈ words (compile groups))
    (hw' : w' ∈ words (compile groups)) (h : address w = address w') : index w = index w' := by
  obtain ⟨start, -, hWords⟩ := exists_start hFits
  obtain ⟨s, hs, hAddress, hIndex⟩ := hWords w hw
  obtain ⟨s', hs', hAddress', hIndex'⟩ := hWords w' hw'
  have hGroup : w.1.grpid = w'.1.grpid := by omega
  have hPlace : s = s' := by omega
  rw [hIndex, hIndex', hGroup, hPlace]

theorem nodup_address (hFits : Fits groups) : ((words (compile groups)).map address).Nodup := by
  have hIndices : ((words (compile groups)).map index).Nodup := by
    rw [map_index_compile]
    exact List.nodup_range
  rw [List.Nodup, List.pairwise_map] at hIndices ⊢
  exact hIndices.imp_of_mem fun hw hw' hNe hEq => hNe (index_eq_of_address_eq hFits hw hw' hEq)

section Blocks

theorem toNat_blockOffset (addr : BitVec 16) : (addr &&& 0x0fff#16).toNat = addr.toNat % 4096 :=
  (BitVec.toNat_and ..).trans (Nat.and_two_pow_sub_one_eq_mod _ 12)

theorem toNat_blockId (addr : BitVec 16) : (addr &&& 0xf000#16).toNat = addr.toNat / 4096 * 4096 := by
  have hShift : addr &&& 0xf000#16 = (addr >>> 12) <<< 12 := by
    apply BitVec.eq_of_getLsbD_eq
    intro i hi
    interval_cases i <;> simp
  have hLt := addr.isLt
  rw [hShift, BitVec.toNat_shiftLeft, BitVec.toNat_ushiftRight, Nat.shiftRight_eq_div_pow, Nat.shiftLeft_eq]
  omega

end Blocks

theorem labels_cons (sg : Located) (sgs : List Located) :
    labels (sg :: sgs) = (sg.getBaseAddr.map fun base => (BitVec.ofNat 16 base, sg.glbIdx)).bind fun label =>
      (labels sgs).bind fun rest => some (label :: rest) := by
  rw [labels, List.mapM_cons]
  rfl

theorem labels_eq_some {sgs : List Located} {ls : List (BitVec 16 × Nat)} :
    labels sgs = some ls ↔ (∀ sg ∈ sgs, sg.base < 2 ^ 12) ∧
      ls = sgs.map fun sg => (BitVec.ofNat 16 (sg.grpid * 2 ^ 12 + sg.base), sg.glbIdx) := by
  induction sgs generalizing ls with
  | nil =>
    constructor
    · rintro ⟨rfl⟩
      exact ⟨fun _ hMem => (nomatch hMem), rfl⟩
    · rintro ⟨-, rfl⟩
      rfl
  | cons sg sgs ih =>
    rw [labels_cons, List.forall_mem_cons, List.map_cons, Located.getBaseAddr]
    split
    · rename_i hOut
      exact iff_of_false (fun h => nomatch h) (fun h => absurd h.1.1 (Nat.not_lt.mpr hOut))
    · rename_i hIn
      rw [Option.map_some, Option.bind_some, Option.bind_eq_some_iff]
      constructor
      · rintro ⟨rest, hRest, ⟨rfl⟩⟩
        obtain ⟨hAll, rfl⟩ := ih.mp hRest
        exact ⟨⟨Nat.not_le.mp hIn, hAll⟩, rfl⟩
      · rintro ⟨⟨-, hAll⟩, rfl⟩
        exact ⟨_, ih.mpr ⟨hAll, rfl⟩, rfl⟩

theorem address_lt (hFits : Fits groups) (hMem : w ∈ words (compile groups)) : address w < 2 ^ 16 := by
  obtain ⟨start, hPlaced, hWords⟩ := exists_start hFits
  obtain ⟨s, hs, hAddress, -⟩ := hWords w hMem
  have hGroup := (hPlaced.group w.1 (mem_words.mp hMem).1).2
  omega

theorem toNat_address (hFits : Fits groups) (hMem : w ∈ words (compile groups)) :
    (BitVec.ofNat 16 (address w)).toNat = address w := by
  rw [BitVec.toNat_ofNat, Nat.mod_eq_of_lt (address_lt hFits hMem)]

theorem label_iff (hFits : Fits groups) (hw : w ∈ words (compile groups)) {sg : Located}
    (hMem : sg ∈ compile groups) (hBase : sg.base < 2 ^ 12) :
    (BitVec.ofNat 16 (sg.grpid * 2 ^ 12 + sg.base) == BitVec.ofNat 16 (address w) &&& 0xf000#16) = true ↔
      sg.grpid = w.1.grpid ∧ sg.base = 0 := by
  obtain ⟨start, hPlaced, hWords⟩ := exists_start hFits
  obtain ⟨s, hs, hAddress, -⟩ := hWords w hw
  have hGroup := (hPlaced.group sg hMem).2
  rw [beq_iff_eq, ← BitVec.toNat_inj, toNat_blockId, toNat_address hFits hw, BitVec.toNat_ofNat]
  omega

theorem decode_address (hFits : Fits groups) {ls : List (BitVec 16 × Nat)}
    (hLabels : labels (compile groups) = some ls) (hMem : w ∈ words (compile groups)) :
    (decode ls (BitVec.ofNat 16 (address w))).toNat = index w := by
  obtain ⟨start, hPlaced, hWords⟩ := exists_start hFits
  obtain ⟨s, hs, hAddress, hIndex⟩ := hWords w hMem
  obtain ⟨hBases, rfl⟩ := labels_eq_some.mp hLabels
  have hSg := (mem_words.mp hMem).1
  rw [decode]
  split
  · rename_i label hFind
    obtain ⟨sg, hIn, rfl⟩ := List.mem_map.mp (List.mem_of_find?_eq_some hFind)
    have hFound := List.find?_some hFind
    obtain ⟨hGroup, hBase⟩ := (label_iff hFits hMem hIn (hBases sg hIn)).mp hFound
    obtain ⟨s₀, hNumber, hPlace⟩ := hPlaced.aligned sg hIn
    have hSmall := index_lt hMem
    have hRegs := hFits.regs
    rw [BitVec.toNat_ofNat, toNat_blockOffset, toNat_address hFits hMem, hAddress]
    change (sg.glbIdx + _) % _ = _
    rw [hNumber, hGroup]
    omega
  · rename_i hNone
    obtain ⟨first, hFirst, hPlace⟩ := hPlaced.first w.1 hSg
    refine absurd ((label_iff hFits hMem hFirst (hBases first hFirst)).mpr hPlace) ?_
    exact List.find?_eq_none.mp hNone _ (List.mem_map_of_mem hFirst)

/-- The register groups of the script: cl, stats, me, her and her_meta. -/
def regGroups : List (List SubGroup) :=
  [[⟨false, 2, 32⟩, ⟨true, 1, 32⟩],
    [⟨true, 2, 32⟩, ⟨true, 1, 32⟩, ⟨true, 2, 32⟩],
    [⟨false, 1, 1⟩, ⟨false, 4, 1⟩, ⟨false, 16, 32⟩, ⟨false, 16, 32⟩, ⟨false, 16, 32⟩,
     ⟨false, 16, 32⟩],
    [⟨false, 1, 1⟩, ⟨false, 4, 1⟩],
    [⟨false, 4, 32⟩, ⟨false, 4, 32⟩, ⟨false, 4, 64⟩, ⟨false, 4, 32⟩] ++
      List.replicate 14 ⟨false, 4, 32⟩]

theorem regGroups_fits : Fits regGroups := by
  constructor <;> decide +kernel

end Agreement

end FPsPIN.RegsCompiler
