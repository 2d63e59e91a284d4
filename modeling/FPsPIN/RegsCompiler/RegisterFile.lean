import FPsPIN.Driver.Registers
import FPsPIN.Lib.Trace
import FPsPIN.RegsCompiler.Layout

/-!
# Writes to the register file

The module pspin_ctrl_regs for the groups of the script. A write goes to the
word that the decoder finds, byte by byte as its strobes say, unless the word
is read-only or there is none.

The decoder adds the offset in a window to the first number of the group and
does not ask whether the group ends before. Behind the three registers of the
first window lie, under addresses that belong to nothing, the registers of the
groups that follow.
-/

namespace FPsPIN.RegsCompiler

open FPsPIN.Trace

/-- A write to the word at a 16 bit address. -/
structure Write where
  wordAddr : BitVec 14
  data : BitVec 32
  strb : BitVec 4

def Write.addr (w : Write) : BitVec 16 := w.wordAddr ++ 0#2

/-- The bytes with a strobe are replaced. -/
def mergeBytes (strb : BitVec 4) (data old : BitVec 32) : BitVec 32 :=
  let lane (i : Nat) : BitVec 8 :=
    if strb.getLsbD i then data.extractLsb' (8 * i) 8 else old.extractLsb' (8 * i) 8
  lane 3 ++ lane 2 ++ lane 1 ++ lane 0

/-- A cycle: the write on the register interface and the register inputs from STATS_CLUSTER_REG_OFF on. -/
structure Cycle where
  write : Option Write
  stats : Nat → BitVec 32

def ctrlSubGroups : List Located := compile regGroups

/-- The labels of the decoder. -/
def ctrlLabels : List (BitVec 16 × Nat) :=
  ctrlSubGroups.map fun sg => (BitVec.ofNat 16 (sg.grpid * 2 ^ 12 + sg.base), sg.glbIdx)

def regfileIdxReadonly (idx : Nat) : Bool :=
  ctrlSubGroups.any fun sg => sg.readonly && decide (sg.glbIdx ≤ idx ∧ idx < sg.glbIdx + sg.count)

/-- A write to a word that does not exist is without effect. -/
def writeReg (ctrlRegs : Nat → BitVec 32) (w : Write) : Nat → BitVec 32 :=
  let idx := decode ctrlLabels w.addr
  if idx ≠ regfileIdxInvalid ∧ idx.toNat < numRegs ctrlSubGroups ∧ regfileIdxReadonly idx.toNat = false then
    Function.update ctrlRegs idx.toNat (mergeBytes w.strb w.data (ctrlRegs idx.toNat))
  else ctrlRegs

/-- The status registers are loaded in every cycle. -/
def loadStats (stats ctrlRegs : Nat → BitVec 32) (idx : Nat) : BitVec 32 :=
  if 3 ≤ idx ∧ idx < 8 then stats (idx - 3) else ctrlRegs idx

/-- The registers, and the writes so far. -/
structure RegState where
  ctrlRegs : Nat → BitVec 32
  writes : List Write

def resetValue (idx : Nat) : BitVec 32 := if idx = 1 then BitVec.allOnes 32 else 0

def RegState.reset : RegState := ⟨resetValue, []⟩

def RegState.next (s : RegState) (c : Cycle) : RegState :=
  match c.write with
  | none => ⟨loadStats c.stats s.ctrlRegs, s.writes⟩
  | some w => ⟨loadStats c.stats (writeReg s.ctrlRegs w), s.writes ++ [w]⟩

def RegState.step (s : RegState) (c : Cycle) : Option RegState := some (s.next c)

def merged (addr : Nat) (reset : BitVec 32) (writes : List Write) : BitVec 32 :=
  (writes.filter fun w => w.addr.toNat = addr).foldl (fun old w => mergeBytes w.strb w.data old) reset

/-- Every control register has what was written to its own address. -/
def Faithful (s : RegState) : Prop :=
  ∀ r ∈ words ctrlSubGroups, r.1.readonly = false →
    s.ctrlRegs (index r) = merged (address r) (resetValue (index r)) s.writes

def Assigned (addr : Nat) : Prop := ∃ r ∈ words ctrlSubGroups, r.1.readonly = false ∧ address r = addr

def Inert (s : RegState) (c : Cycle) : Prop :=
  Faithful (s.next c) ∧
    ∀ w, c.write = some w → ¬ Assigned w.addr.toNat →
      (s.next c).ctrlRegs = (s.next { c with write := none }).ctrlRegs

/-- A write to another address finds no control register behind its group, or one that has its bytes already. -/
def Harmless (s : RegState) (c : Cycle) : Prop :=
  ∀ w, c.write = some w → ¬ Assigned w.addr.toNat →
    ∀ idx, Driver.regfileIdx w.addr.toNat = some idx → idx < 158 → Driver.readonly idx = false →
      mergeBytes w.strb w.data (s.ctrlRegs idx) = s.ctrlRegs idx

section Table

theorem labels_ctrl : labels (compile regGroups) = some ctrlLabels := by
  have hBases : ∀ sg ∈ compile regGroups, sg.base < 2 ^ 12 := by decide +kernel
  exact labels_eq_some.mpr ⟨hBases, rfl⟩

theorem numRegs_ctrl : numRegs ctrlSubGroups = 158 := by decide +kernel

theorem readonly_ctrl {idx : Nat} (h : idx < 158) : regfileIdxReadonly idx = Driver.readonly idx := by
  have hAll : ∀ idx : Fin 158, regfileIdxReadonly idx = Driver.readonly idx := by decide +kernel
  exact hAll ⟨idx, h⟩

theorem readonly_word {r : Located × Nat} (h : r ∈ words ctrlSubGroups) :
    regfileIdxReadonly (index r) = r.1.readonly := by
  have hAll : ∀ r ∈ words ctrlSubGroups, regfileIdxReadonly (index r) = r.1.readonly := by decide +kernel
  exact hAll r h

theorem decode_ctrl (addr : BitVec 16) :
    decode ctrlLabels addr = match Driver.regfileIdx addr.toNat with
      | some idx => BitVec.ofNat 14 idx
      | none => regfileIdxInvalid := by
  have hFind : ∀ block : Fin 16,
    (ctrlLabels.find? fun label => label.1 == BitVec.ofNat 16 (block * 4096)).map Prod.snd =
      Driver.blockOff block := by decide +kernel
  have hLt := addr.isLt
  have hBlock : addr &&& 0xf000#16 = BitVec.ofNat 16 (addr.toNat / 4096 * 4096) := by
    apply BitVec.eq_of_toNat_eq
    rw [toNat_blockId, BitVec.toNat_ofNat]
    omega
  have hId : addr.toNat / 4096 % 16 = addr.toNat / 4096 := by omega
  have hOff := hFind ⟨addr.toNat / 4096, by omega⟩
  rw [Driver.regfileIdx, hId, ← hOff, decode, hBlock, toNat_blockOffset]
  cases ctrlLabels.find? fun label => label.1 == BitVec.ofNat 16 (addr.toNat / 4096 * 4096) with
  | none => rfl
  | some label => rfl

theorem regfileIdx_lt {addr idx : Nat} (h : Driver.regfileIdx addr = some idx) : idx < 2000 := by
  obtain ⟨off, hOff, rfl⟩ := Option.map_eq_some_iff.mp h
  have hSmall : ∀ block : Fin 16, ∀ off ∈ Driver.blockOff block, off < 900 := by decide
  have hLt := hSmall ⟨addr / 0x1000 % 16, Nat.mod_lt _ (by decide)⟩ off hOff
  omega

theorem writeReg_eq (ctrlRegs : Nat → BitVec 32) (w : Write) :
    writeReg ctrlRegs w = match Driver.regfileIdx w.addr.toNat with
      | none => ctrlRegs
      | some idx => if idx < 158 ∧ Driver.readonly idx = false then
          Function.update ctrlRegs idx (mergeBytes w.strb w.data (ctrlRegs idx)) else ctrlRegs := by
  rw [writeReg, decode_ctrl, numRegs_ctrl]
  cases hIdx : Driver.regfileIdx w.addr.toNat with
  | none => exact if_neg fun h => h.1 rfl
  | some idx =>
    have hLt := regfileIdx_lt hIdx
    have hNat : (BitVec.ofNat 14 idx).toNat = idx := by
      rw [BitVec.toNat_ofNat]
      omega
    have hValid : BitVec.ofNat 14 idx ≠ regfileIdxInvalid := by
      intro hEq
      have hToNat := congrArg BitVec.toNat hEq
      rw [hNat] at hToNat
      change idx = 16383 at hToNat
      omega
    simp only [hNat]
    refine if_congr ((and_iff_right hValid).trans (and_congr_right fun hSmall => ?_)) rfl rfl
    rw [readonly_ctrl hSmall]

theorem regfileIdx_address {r : Located × Nat} (hMem : r ∈ words ctrlSubGroups) {addr : BitVec 16}
    (hAddr : address r = addr.toNat) : Driver.regfileIdx addr.toNat = some (index r) := by
  have hDecode := decode_address regGroups_fits labels_ctrl hMem
  have hLt : index r < 158 := Nat.lt_of_lt_of_eq (index_lt hMem) numRegs_ctrl
  rw [hAddr, BitVec.ofNat_toNat, BitVec.setWidth_eq, decode_ctrl] at hDecode
  cases hIdx : Driver.regfileIdx addr.toNat with
  | none =>
    rw [hIdx] at hDecode
    change 16383 = _ at hDecode
    omega
  | some idx =>
    have hSmall := regfileIdx_lt hIdx
    rw [hIdx] at hDecode
    change (BitVec.ofNat 14 idx).toNat = _ at hDecode
    rw [BitVec.toNat_ofNat] at hDecode
    congr 1
    omega

theorem exists_word {idx : Nat} (h : idx < 158) : ∃ r ∈ words ctrlSubGroups, index r = idx := by
  have hMem : idx ∈ (words (compile regGroups)).map index := by
    rw [map_index_compile, List.mem_range]
    exact Nat.lt_of_lt_of_eq h numRegs_ctrl.symm
  exact List.mem_map.mp hMem

end Table

section Writes

theorem merged_append (addr : Nat) (reset : BitVec 32) (writes : List Write) (w : Write) :
    merged addr reset (writes ++ [w]) =
      if w.addr.toNat = addr then mergeBytes w.strb w.data (merged addr reset writes)
      else merged addr reset writes := by
  rw [merged, List.filter_append, List.foldl_append]
  split
  · rename_i hAddr
    rw [List.filter_cons_of_pos (by simpa using hAddr)]
    rfl
  · rename_i hAddr
    rw [List.filter_cons_of_neg (by simpa using hAddr)]
    rfl

theorem loadStats_word (stats ctrlRegs : Nat → BitVec 32) {r : Located × Nat} (hMem : r ∈ words ctrlSubGroups)
    (hControl : r.1.readonly = false) : loadStats stats ctrlRegs (index r) = ctrlRegs (index r) := by
  have hAll : ∀ r ∈ words ctrlSubGroups, r.1.readonly = false → ¬ (3 ≤ index r ∧ index r < 8) := by
    decide +kernel
  exact if_neg (hAll r hMem hControl)

theorem faithful_loadStats {stats ctrlRegs : Nat → BitVec 32} {writes : List Write} :
    Faithful ⟨loadStats stats ctrlRegs, writes⟩ ↔ Faithful ⟨ctrlRegs, writes⟩ := by
  constructor
  · intro h r hMem hControl
    exact (loadStats_word stats ctrlRegs hMem hControl).symm.trans (h r hMem hControl)
  · intro h r hMem hControl
    exact (loadStats_word stats ctrlRegs hMem hControl).trans (h r hMem hControl)

theorem writeReg_assigned (ctrlRegs : Nat → BitVec 32) {w : Write} {r : Located × Nat}
    (hMem : r ∈ words ctrlSubGroups) (hControl : r.1.readonly = false) (hAddr : address r = w.addr.toNat) :
    writeReg ctrlRegs w =
      Function.update ctrlRegs (index r) (mergeBytes w.strb w.data (ctrlRegs (index r))) := by
  have hLt : index r < 158 := Nat.lt_of_lt_of_eq (index_lt hMem) numRegs_ctrl
  have hReadonly : Driver.readonly (index r) = false := by
    rw [← readonly_ctrl hLt, readonly_word hMem, hControl]
  rw [writeReg_eq, regfileIdx_address hMem hAddr]
  exact if_pos ⟨hLt, hReadonly⟩

theorem faithful_assigned {s : RegState} (h : Faithful s) {w : Write} (hAssigned : Assigned w.addr.toNat) :
    Faithful ⟨writeReg s.ctrlRegs w, s.writes ++ [w]⟩ := by
  obtain ⟨r, hMem, hControl, hAddr⟩ := hAssigned
  intro r' hMem' hControl'
  change writeReg s.ctrlRegs w (index r') = merged _ _ (s.writes ++ [w])
  rw [writeReg_assigned _ hMem hControl hAddr, merged_append]
  split
  · rename_i hSame
    have hIndex : index r = index r' := index_eq_of_address_eq regGroups_fits hMem hMem' (hAddr.trans hSame)
    rw [hIndex, Function.update_self, h r' hMem' hControl']
  · rename_i hOther
    have hIndex : index r' ≠ index r := by
      intro hEq
      rw [word_eq_of_index_eq hMem' hMem hEq] at hOther
      exact hOther hAddr.symm
    rw [Function.update_of_ne hIndex]
    exact h r' hMem' hControl'

theorem writeReg_of_same {ctrlRegs : Nat → BitVec 32} {w : Write}
    (h : ∀ idx, Driver.regfileIdx w.addr.toNat = some idx → idx < 158 → Driver.readonly idx = false →
      mergeBytes w.strb w.data (ctrlRegs idx) = ctrlRegs idx) : writeReg ctrlRegs w = ctrlRegs := by
  rw [writeReg_eq]
  split
  · rfl
  · rename_i idx hIdx
    split
    · rename_i hControl
      rw [h idx hIdx hControl.1 hControl.2, Function.update_eq_self]
    · rfl

theorem faithful_unassigned {s : RegState} (h : Faithful s) {w : Write} (hOther : ¬ Assigned w.addr.toNat) :
    Faithful ⟨writeReg s.ctrlRegs w, s.writes ++ [w]⟩ ↔
      ∀ idx, Driver.regfileIdx w.addr.toNat = some idx → idx < 158 → Driver.readonly idx = false →
        mergeBytes w.strb w.data (s.ctrlRegs idx) = s.ctrlRegs idx := by
  have hMerged : ∀ r ∈ words ctrlSubGroups, r.1.readonly = false → ∀ reset,
      merged (address r) reset (s.writes ++ [w]) = merged (address r) reset s.writes := by
    intro r hMem hControl reset
    rw [merged_append]
    exact if_neg fun hAddr => hOther ⟨r, hMem, hControl, hAddr.symm⟩
  constructor
  · intro hFaithful idx hIdx hLt hReadonly
    obtain ⟨r, hMem, rfl⟩ := exists_word hLt
    have hControl : r.1.readonly = false := by
      rw [← readonly_word hMem, readonly_ctrl hLt, hReadonly]
    have hAfter := hFaithful r hMem hControl
    change writeReg s.ctrlRegs w (index r) = merged _ _ (s.writes ++ [w]) at hAfter
    rw [hMerged r hMem hControl, ← h r hMem hControl, writeReg_eq, hIdx] at hAfter
    simp only [if_pos (And.intro hLt hReadonly), Function.update_self] at hAfter
    exact hAfter
  · intro hSame r hMem hControl
    change writeReg s.ctrlRegs w (index r) = merged _ _ (s.writes ++ [w])
    rw [writeReg_of_same hSame, hMerged r hMem hControl]
    exact h r hMem hControl

theorem inert_iff {s : RegState} (h : Faithful s) (c : Cycle) : Inert s c ↔ Harmless s c := by
  obtain ⟨write, stats⟩ := c
  cases write with
  | none =>
    exact iff_of_true ⟨faithful_loadStats.mpr h, fun w hWrite => nomatch hWrite⟩ fun w hWrite => nomatch hWrite
  | some w =>
    by_cases hAssigned : Assigned w.addr.toNat
    · refine iff_of_true ⟨faithful_loadStats.mpr (faithful_assigned h hAssigned), ?_⟩ ?_
      · rintro _ ⟨rfl⟩ hOther
        exact absurd hAssigned hOther
      · rintro _ ⟨rfl⟩ hOther
        exact absurd hAssigned hOther
    · have hIff := faithful_unassigned h hAssigned
      constructor
      · rintro hInert _ ⟨rfl⟩ -
        exact hIff.mp (faithful_loadStats.mp hInert.1)
      · intro hHarmless
        have hSame := hHarmless w rfl hAssigned
        refine ⟨faithful_loadStats.mpr (hIff.mpr hSame), ?_⟩
        rintro _ ⟨rfl⟩ -
        change loadStats stats (writeReg s.ctrlRegs w) = loadStats stats s.ctrlRegs
        rw [writeReg_of_same hSame]

end Writes

/-- The registers are what was written to their addresses, and other writes are without effect, as long
as these are harmless. -/
theorem writes_inert_iff (cycles : List Cycle) :
    Along RegState.step Inert RegState.reset cycles ↔ Along RegState.step Harmless RegState.reset cycles := by
  have hReset : Faithful RegState.reset := fun _ _ _ => rfl
  have hIff : ∀ s c s', Faithful s → RegState.step s c = some s' → (Inert s c ↔ Harmless s c) :=
    fun s c _ hFaithful _ => inert_iff hFaithful c
  have hStep : ∀ s c s', Faithful s → Inert s c → RegState.step s c = some s' → Faithful s' := by
    rintro s c s' - hInert ⟨rfl⟩
    exact hInert.1
  exact along_congr hIff hStep hReset cycles

/-- The value 1 written to the address 0x20, eight words into the window of the group cl. -/
theorem unmapped_write_changes : ¬ ∀ cycles : List Cycle, Along RegState.step Inert RegState.reset cycles := by
  intro hAll
  have hInert := ((along_cons rfl []).mp (hAll [⟨some ⟨8, 1, 15⟩, fun _ => 0⟩])).1
  have hFree : ¬ Assigned (Write.addr ⟨8, 1, 15⟩).toNat := by
    rintro ⟨r, hMem, -, hAddr⟩
    have hNone : ∀ r ∈ words ctrlSubGroups, address r ≠ 0x20 := by decide +kernel
    exact hNone r hMem hAddr
  have hSame := congrFun (hInert.2 _ rfl hFree) 8
  exact absurd hSame (by decide +kernel)

end FPsPIN.RegsCompiler
