import FPsPIN.Driver.FileCalls

/-!
# Accesses to the device memory

The application window has two memories of PsPIN in it, the handler memory at
its start and the program memory at 4 MiB. Between and behind them are holes.
Only an absolute seek and the two ioctls look at the memories; a relative seek,
a seek from the end and the count of a read or write are checked against the
8 MiB of the whole. The ioctls check the first byte of the eight they access.

So the accesses of a session stay inside the memories exactly as long as each
block that is moved lies in one of them, and no ioctl names one of the last
seven bytes.
-/

namespace FPsPIN.Driver

open FPsPIN.Bytes FPsPIN.Trace

/-- A byte of the handler memory or of the program memory. -/
def WindowByte (addr : Nat) : Prop := addr < 0x100000 ∨ 0x400000 ≤ addr ∧ addr < 0x408000

def InWindows (accessed : List Nat) : Prop := ∀ off ∈ accessed, ∀ k < 4, WindowByte (off + k)

def BlockInside (pos n : Nat) : Prop := n = 0 ∨ pos + n ≤ 0x100000 ∨ 0x400000 ≤ pos ∧ pos + n ≤ 0x408000

/-- The address is none of the last seven of a memory. -/
def WordInside (addr : BitVec 64) : Prop :=
  ¬ (0x1c0ffff8 < addr.toNat ∧ addr.toNat < 0x1c100000) ∧ ¬ (0x1d007ff8 < addr.toNat ∧ addr.toNat < 0x1d008000)

/-- The ioctls that get to the translation of an address and, if it exists, to the device. -/
structure AccessesHost (f : File) (cmd : IoctlCmd) (msg : IoctlMsg) : Prop where
  type : f.type = .tyMem
  request : msg.requestFault = false
  cmd : cmd = .hostRead ∨ cmd = .hostWrite ∧ msg.dataFault = false

def StaysInside (f : File) : FileCall → Prop
  | .llseek .. => True
  | .read c _ count =>
    c.refused = false ∧ ReadsMemory c f → BlockInside f.fPos.toNat (writeCount f.fPos count).toNat
  | .write c _ _ count => Serves c f count → BlockInside f.fPos.toNat (writeCount f.fPos count).toNat
  | .ioctl refused _ cmd msg => refused = false ∧ AccessesHost f cmd msg → WordInside msg.addr

section Blocks

theorem inWindows_nil : InWindows [] := fun _ hOff => nomatch hOff

theorem inWindows_append {xs ys : List Nat} : InWindows (xs ++ ys) ↔ InWindows xs ∧ InWindows ys :=
  List.forall_mem_append

theorem inWindows_blockOffsets {pos words : Nat} (hWords : 4 * words ≤ 4096) :
    InWindows (blockOffsets pos words) ↔ BlockInside pos (4 * words) := by
  constructor
  · intro hIn
    rcases Nat.eq_zero_or_pos words with rfl | hPos
    · exact Or.inl rfl
    · have hMem : ∀ i, i < words → pos + 4 * i ∈ blockOffsets pos words :=
        fun i hi => List.mem_map.mpr ⟨i, List.mem_range.mpr hi, rfl⟩
      have hFirst := hIn _ (hMem 0 hPos) 0 (by decide)
      have hLast := hIn _ (hMem (words - 1) (by omega)) 3 (by decide)
      rw [WindowByte] at hFirst hLast
      rw [BlockInside]
      omega
  · rintro hBlock off hOff k hk
    obtain ⟨i, hi, rfl⟩ := List.mem_map.mp hOff
    have hLt := List.mem_range.mp hi
    rw [BlockInside] at hBlock
    rw [WindowByte]
    omega

theorem map_fst_blockWrites (blockBuffer : Memory) (pos words : Nat) :
    (blockWrites blockBuffer pos words).map Prod.fst = blockOffsets pos words := by
  rw [blockWrites, blockOffsets, List.map_map]
  rfl

theorem toNat_writeCount_div (fPos count : BitVec 64) :
    4 * ((writeCount fPos count).toNat / 4) = (writeCount fPos count).toNat ∧
      (writeCount fPos count).toNat ≤ 4096 := by
  have hBlock : ∀ x : BitVec 64, (if x > pspinBlockSize then pspinBlockSize else x).toNat ≤ 4096 := by
    intro x
    rw [toNat_clamp]
    exact Nat.min_le_right _ _
  have hClamp := hBlock (if fPos + count > pspinMemSize then pspinMemSize - fPos else count)
  rw [writeCount, BitVec.toNat_ofNat, Nat.mod_eq_of_lt (by omega)]
  omega

theorem inWindows_block (fPos count : BitVec 64) :
    InWindows (blockOffsets fPos.toNat ((writeCount fPos count).toNat / 4)) ↔
      BlockInside fPos.toNat (writeCount fPos count).toNat := by
  obtain ⟨hWords, hLe⟩ := toNat_writeCount_div fPos count
  rw [inWindows_blockOffsets (by omega), hWords]

end Blocks

section Calls

variable {c : ReadCall} {mem : Nat → BitVec 32} {f : File} {count : BitVec 64}

theorem copyToUser_reads (blockBuffer : List (BitVec 32)) (reads : List Nat) (taken : List (BitVec 32)) :
    (copyToUser c f blockBuffer reads taken).reads = reads := by
  rw [copyToUser]
  split <;> rfl

theorem inWindows_pspinRead {o : ReadOutcome} (hRead : pspinRead c mem f count = some o) :
    InWindows o.reads ↔
      (ReadsMemory c f → BlockInside f.fPos.toNat (writeCount f.fPos count).toNat) := by
  cases pspinRead_cases hRead with
  | failed e hMem hFifo => exact iff_of_true inWindows_nil fun h => absurd h hMem
  | atEnd hMem hType => exact iff_of_true inWindows_nil fun h => absurd h hMem
  | memory h =>
    rw [copyToUser_reads, inWindows_block]
    exact ⟨fun hBlock _ => hBlock, fun hStays => hStays h⟩
  | stopped h e blockBuffer hLoop =>
    exact iff_of_true inWindows_nil fun hMem => absurd (hMem.type.symm.trans h.type) (by decide)
  | gathered h blockBuffer hLoop =>
    rw [copyToUser_reads]
    exact iff_of_true inWindows_nil fun hMem => absurd (hMem.type.symm.trans h.type) (by decide)

theorem inWindows_read {e : Effect} (hEffect : (FileCall.read c mem count).effect f = some e) :
    InWindows e.accessed ↔ StaysInside f (.read c mem count) := by
  rw [FileCall.effect] at hEffect
  split at hEffect
  · rename_i hRefused
    cases hEffect
    exact iff_of_true inWindows_nil fun h => absurd (hRefused.symm.trans h.1) (by decide)
  · rename_i hRefused
    obtain ⟨o, hRead, rfl⟩ := Option.map_eq_some_iff.mp hEffect
    apply (inWindows_pspinRead hRead).trans
    constructor
    · exact fun hStays h => hStays h.2
    · exact fun hStays h => hStays ⟨eq_false_of_ne_true hRefused, h⟩

theorem inWindows_write {c : Call} {user : BitVec 64 → Byte} {buf : BitVec 64} {e : Effect}
    (hEffect : (FileCall.write c user buf count).effect f = some e) :
    InWindows e.accessed ↔ StaysInside f (.write c user buf count) := by
  cases hEffect
  change InWindows ((write c user f buf count).writes.map Prod.fst) ↔ _
  by_cases hServes : Serves c f count
  · rw [write_of_serves hServes, map_fst_blockWrites, inWindows_block]
    exact ⟨fun hBlock _ => hBlock, fun hStays => hStays hServes⟩
  · rw [write_of_not_serves hServes]
    exact iff_of_true inWindows_nil fun h => absurd h hServes

end Calls

section Words

theorem pspinAddrToCorundum_inside {addr : BitVec 64} (h : (pspinAddrToCorundum addr).slt 0 = false) :
    InWindows [(pspinAddrToCorundum addr).toNat, (pspinAddrToCorundum addr).toNat + 4] ↔ WordInside addr := by
  have hCases := pspinAddrToCorundum_cases h
  have hPair : InWindows [(pspinAddrToCorundum addr).toNat, (pspinAddrToCorundum addr).toNat + 4] ↔
      InWindows (blockOffsets (pspinAddrToCorundum addr).toNat 2) := Iff.rfl
  rw [hPair, inWindows_blockOffsets (by decide), BlockInside, WordInside]
  omega

theorem slt_zero_of_toNat_lt {x : BitVec 64} (h : x.toNat < 2 ^ 63) : x.slt 0 = false := by
  have hInt : x.toInt = x.toNat := BitVec.toInt_eq_toNat_of_lt (by omega)
  rw [BitVec.slt_eq_decide, hInt]
  exact decide_eq_false (Int.not_lt.mpr (Int.natCast_nonneg _))

theorem wordInside_of_slt {addr : BitVec 64} (h : (pspinAddrToCorundum addr).slt 0 = true) : WordInside addr := by
  have hProg : ¬ (0x1d000000 ≤ addr.toNat ∧ addr.toNat < 0x1d008000) := by
    intro hRange
    have hSub : (addr - pspinProgBase).toNat = addr.toNat - 0x1d000000 := BitVec.toNat_sub_of_le hRange.1
    have hSmall : (addr - pspinProgBase + 0x400000).toNat < 2 ^ 63 := by
      rw [BitVec.toNat_add_of_lt (by rw [hSub]; change _ + 0x400000 < _; omega), hSub]
      change _ + 0x400000 < _
      omega
    have hCheck : checkRange addr pspinProgBase pspinProgSize = true := (checkRange_iff (by decide)).mpr hRange
    rw [pspinAddrToCorundum, if_pos hCheck, slt_zero_of_toNat_lt hSmall] at h
    cases h
  have hHnd : ¬ (0x1c000000 ≤ addr.toNat ∧ addr.toNat < 0x1c100000) := by
    intro hRange
    have hSub : (addr - pspinHndBase).toNat = addr.toNat - 0x1c000000 := BitVec.toNat_sub_of_le hRange.1
    have hOther : ¬ checkRange addr pspinProgBase pspinProgSize = true :=
      fun hCheck => hProg ((checkRange_iff (by decide)).mp hCheck)
    have hCheck : checkRange addr pspinHndBase pspinHndSize = true := (checkRange_iff (by decide)).mpr hRange
    rw [pspinAddrToCorundum, if_neg hOther, if_pos hCheck, slt_zero_of_toNat_lt (by omega)] at h
    cases h
  rw [WordInside]
  omega

variable {mem : Nat → BitVec 32} {f : File} {cmd : IoctlCmd} {msg : IoctlMsg}

def IoctlOutcome.accessed (o : IoctlOutcome) : List Nat := o.writes.map Prod.fst ++ o.reads

theorem accessed_of_accessesHost (h : AccessesHost f cmd msg) :
    (pspinIoctl mem f cmd msg).accessed =
      if (pspinAddrToCorundum msg.addr).slt 0 then []
      else [(pspinAddrToCorundum msg.addr).toNat, (pspinAddrToCorundum msg.addr).toNat + 4] := by
  have hType : f.type ≠ .tyFifo := by
    rw [h.type]
    decide
  unfold pspinIoctl
  rw [if_neg hType]
  rcases h.cmd with rfl | ⟨rfl, hData⟩
  · simp only [h.request, Bool.false_eq_true, if_false]
    split
    · rfl
    · split <;> rfl
  · simp only [h.request, hData, Bool.false_eq_true, if_false]
    split <;> rfl

theorem accessed_of_not_accessesHost (h : ¬ AccessesHost f cmd msg) :
    (pspinIoctl mem f cmd msg).accessed = [] := by
  unfold pspinIoctl
  split
  · rfl
  · rename_i hType
    have hType := tyMem_of_ne hType
    cases hRequest : msg.requestFault with
    | true => cases cmd <;> rfl
    | false =>
      cases cmd with
      | hostdmaQuery =>
        simp only [Bool.false_eq_true, if_false]
        split <;> rfl
      | hostWrite =>
        cases hData : msg.dataFault with
        | true =>
          simp only [Bool.false_eq_true, if_true, ite_self]
          rfl
        | false => exact absurd ⟨hType, hRequest, Or.inr ⟨rfl, hData⟩⟩ h
      | hostRead => exact absurd ⟨hType, hRequest, Or.inl rfl⟩ h
      | unknown => rfl

theorem inWindows_ioctl {refused : Bool} {e : Effect}
    (hEffect : (FileCall.ioctl refused mem cmd msg).effect f = some e) :
    InWindows e.accessed ↔ StaysInside f (.ioctl refused mem cmd msg) := by
  cases refused with
  | true =>
    cases hEffect
    exact iff_of_true inWindows_nil fun h => nomatch h.1
  | false =>
    cases hEffect
    change InWindows (pspinIoctl mem f cmd msg).accessed ↔ (_ → WordInside msg.addr)
    by_cases hHost : AccessesHost f cmd msg
    · rw [accessed_of_accessesHost hHost]
      split
      · rename_i hNone
        exact iff_of_true inWindows_nil fun _ => wordInside_of_slt hNone
      · rename_i hSome
        rw [pspinAddrToCorundum_inside (eq_false_of_ne_true hSome)]
        exact ⟨fun hInside _ => hInside, fun hStays => hStays ⟨rfl, hHost⟩⟩
    · rw [accessed_of_not_accessesHost hHost]
      exact iff_of_true inWindows_nil fun h => absurd h.2 hHost

end Words

section Sessions

theorem inWindows_effect {f : File} {call : FileCall} {e : Effect} (hEffect : call.effect f = some e) :
    InWindows e.accessed ↔ StaysInside f call := by
  cases call with
  | llseek c off whence =>
    cases hEffect
    exact iff_of_true inWindows_nil trivial
  | read c mem count => exact inWindows_read hEffect
  | write c user buf count => exact inWindows_write hEffect
  | ioctl refused mem cmd msg => exact inWindows_ioctl hEffect

/-- The accesses of a session are inside the memories as long as each call stays inside. -/
theorem session_accesses_inside (types : Nat → DeviceType) (calls : List (Nat × FileCall)) :
    (∀ made, made <+: calls → ∀ s, run Session.step (Session.opened types) made = some s →
      InWindows s.accessed) ↔
      Along Session.step (fun s a => StaysInside (s.files a.1) a.2) (Session.opened types) calls := by
  have hStep : ∀ s a s', True → InWindows s.accessed → Session.step s a = some s' →
      True ∧ (InWindows s'.accessed ↔ StaysInside (s.files a.1) a.2) := by
    rintro s a s' - hGood hNext
    obtain ⟨e, hEffect, rfl⟩ := Session.step_eq_some hNext
    refine ⟨trivial, ?_⟩
    change InWindows (s.accessed ++ e.accessed) ↔ _
    rw [inWindows_append, inWindows_effect hEffect]
    exact and_iff_right hGood
  exact along_iff hStep trivial inWindows_nil calls

/-- A seek to the end less one word, and a read of that word. -/
def holeCalls : List (Nat × FileCall) :=
  [(0, .llseek ⟨false, false, false, false⟩ (-4) .seekEnd),
    (0, .read ⟨false, false, false, false, 4, []⟩ (fun _ => 0) 4)]

theorem hole_accessed : ¬ ∀ (types : Nat → DeviceType) (calls : List (Nat × FileCall)) (s : Session),
    run Session.step (Session.opened types) calls = some s → InWindows s.accessed := by
  intro hAll
  have hRun : (run Session.step (Session.opened fun _ => .tyMem) holeCalls).map Session.accessed =
      some [0x7ffffc] := by decide +kernel
  obtain ⟨s, hSome, hAccessed⟩ := Option.map_eq_some_iff.mp hRun
  have hIn := hAll _ _ s hSome
  rw [hAccessed] at hIn
  have hByte := hIn 0x7ffffc List.mem_cons_self 0 (by decide)
  rw [WindowByte] at hByte
  omega

end Sessions

end FPsPIN.Driver
