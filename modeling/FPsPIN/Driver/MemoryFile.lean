import Mathlib.Tactic.SplitIfs
import FPsPIN.Lib.Bytes

/-!
# The memory device as a file

The program and handler memories of PsPIN lie in the first 8 MiB of the
application window, and the driver offers them as a file. A seek takes an
address of PsPIN and translates it, a write moves at most one block of words
from the position on. Both are refused while the clusters are in reset.

What the kernel decides in a call is an argument. A write that fails has
written nothing. A count is rounded down to whole words, so a write of fewer
than four bytes succeeds and has written nothing either.
-/

namespace FPsPIN.Driver

open FPsPIN.Bytes

inductive DeviceType where
  | tyMem
  | tyFifo
deriving DecidableEq

inductive Errno where
  | einval
  | eperm
  | eintr
  | efault
deriving DecidableEq

inductive Whence where
  | seekSet
  | seekCur
  | seekEnd
  | unsupported
deriving DecidableEq

/-- One system call: refused before the driver is entered, the cluster in reset, the wait for the mutex
killed, and user memory that cannot be copied. -/
structure Call where
  refused : Bool
  inReset : Bool
  killed : Bool
  copyFault : Bool

structure File where
  type : DeviceType
  fPos : BitVec 64
deriving DecidableEq

def pspinProgBase : BitVec 64 := 0x1d000000
def pspinProgSize : BitVec 64 := 0x8000
def pspinHndBase : BitVec 64 := 0x1c000000
def pspinHndSize : BitVec 64 := 0x100000
def pspinMemSize : BitVec 64 := 0x800000
def pspinBlockSize : BitVec 64 := 4096

def checkRange (addr base size : BitVec 64) : Bool := decide (base ≤ addr ∧ addr < base + size)

def pspinAddrToCorundum (pspinAddr : BitVec 64) : BitVec 64 :=
  if checkRange pspinAddr pspinProgBase pspinProgSize then pspinAddr - pspinProgBase + 0x400000
  else if checkRange pspinAddr pspinHndBase pspinHndSize then pspinAddr - pspinHndBase
  else -1

def seekTo (f : File) (newpos : BitVec 64) : Except Errno File :=
  if newpos.slt 0 || pspinMemSize < newpos then .error .einval else .ok { f with fPos := newpos }

def pspinLlseek (c : Call) (f : File) (off : BitVec 64) (whence : Whence) : Except Errno File :=
  if f.type = .tyFifo then .error .einval
  else if c.inReset then .error .eperm
  else match whence with
    | .seekSet => if (pspinAddrToCorundum off).slt 0 then .error .einval else seekTo f (pspinAddrToCorundum off)
    | .seekCur => seekTo f (f.fPos + off)
    | .seekEnd => seekTo f (pspinMemSize + off)
    | .unsupported => .error .einval

/-- The count of a write at a position: up to the end of the memory, one block, whole words. -/
def writeCount (fPos count : BitVec 64) : BitVec 64 :=
  let count := if fPos + count > pspinMemSize then pspinMemSize - fPos else count
  let count := if count > pspinBlockSize then pspinBlockSize else count
  BitVec.ofNat 64 (count.toNat / 4 * 4)

abbrev WordWrite := Nat × BitVec 32

def blockWrites (blockBuffer : Memory) (pos words : Nat) : List WordWrite :=
  (List.range words).map fun i => (pos + 4 * i, loadLE 4 blockBuffer (4 * i))

structure Written where
  retval : BitVec 64
  file : File
  writes : List WordWrite

def pspinWrite (c : Call) (user : BitVec 64 → Byte) (f : File) (buf count : BitVec 64) : Except Errno Written :=
  if f.type = .tyFifo then .error .einval
  else if c.inReset then .error .eperm
  else if c.killed then .error .eintr
  else if pspinMemSize ≤ f.fPos then .error .einval
  else if c.copyFault ∧ writeCount f.fPos count ≠ 0 then .error .efault
  else .ok
    { retval := writeCount f.fPos count
      file := { f with fPos := f.fPos + writeCount f.fPos count }
      writes := blockWrites (fun i => user (buf + BitVec.ofNat 64 i)) f.fPos.toNat
        ((writeCount f.fPos count).toNat / 4) }

section SystemCalls

/-- The system call write: any failure is -1. -/
def write (c : Call) (user : BitVec 64 → Byte) (f : File) (buf count : BitVec 64) : Written :=
  if c.refused then ⟨-1, f, []⟩
  else match pspinWrite c user f buf count with
    | .error _ => ⟨-1, f, []⟩
    | .ok w => w

def lseek (c : Call) (f : File) (off : BitVec 64) (whence : Whence) : Option File :=
  if c.refused then none else (pspinLlseek c f off whence).toOption

end SystemCalls

def writeWord (m : Memory) (w : WordWrite) : Memory := place m w.1 (bytesLE 4 w.2)

section Blocks

theorem blockWrites_succ (blockBuffer : Memory) (pos words : Nat) :
    blockWrites blockBuffer pos (words + 1) =
      blockWrites blockBuffer pos words ++ [(pos + 4 * words, loadLE 4 blockBuffer (4 * words))] := by
  rw [blockWrites, List.range_succ, List.map_append]
  rfl

theorem blockWrites_add (blockBuffer : Memory) (pos m n : Nat) :
    blockWrites blockBuffer pos (m + n) =
      blockWrites blockBuffer pos m ++ blockWrites (fun i => blockBuffer (4 * m + i)) (pos + 4 * m) n := by
  induction n with
  | zero => simp [blockWrites]
  | succ n ih =>
    have hWord : loadLE 4 (fun i => blockBuffer (4 * m + i)) (4 * n) = loadLE 4 blockBuffer (4 * (m + n)) := by
      apply BitVec.eq_of_getLsbD_eq
      intro i hi
      have hAddr : 4 * m + (4 * n + i / 8) = 4 * (m + n) + i / 8 := by omega
      rw [getLsbD_loadLE _ _ hi, getLsbD_loadLE _ _ hi, hAddr]
    have hPos : pos + 4 * m + 4 * n = pos + 4 * (m + n) := by omega
    rw [← Nat.add_assoc, blockWrites_succ, ih, blockWrites_succ, hWord, hPos, List.append_assoc]

theorem mem_blockWrites {blockBuffer : Memory} {pos words : Nat} {w : WordWrite}
    (h : w ∈ blockWrites blockBuffer pos words) : pos ≤ w.1 ∧ w.1 + 4 ≤ pos + 4 * words := by
  obtain ⟨i, hi, rfl⟩ := List.mem_map.mp h
  have hLt := List.mem_range.mp hi
  constructor
  · exact Nat.le_add_right _ _
  · change pos + 4 * i + 4 ≤ _
    omega

theorem exists_last_blockWrites (blockBuffer : Memory) (pos : Nat) {words : Nat} (h : 0 < words) :
    ∃ w ∈ blockWrites blockBuffer pos words, w.1 + 4 = pos + 4 * words := by
  obtain ⟨k, rfl⟩ := Nat.exists_eq_add_of_le' h
  refine ⟨(pos + 4 * k, loadLE 4 blockBuffer (4 * k)), ?_, ?_⟩
  · rw [blockWrites_succ]
    exact List.mem_append_right _ List.mem_cons_self
  · change pos + 4 * k + 4 = _
    omega

theorem blockWrites_memory (m blockBuffer : Memory) (pos words : Nat) {k : Nat} (hk : k < 4 * words) :
    ((blockWrites blockBuffer pos words).foldl writeWord m) (pos + k) = blockBuffer k := by
  induction words with
  | zero => omega
  | succ words ih =>
    rw [blockWrites_succ, List.foldl_append]
    change place ((blockWrites blockBuffer pos words).foldl writeWord m) _ _ _ = _
    rcases Nat.lt_or_ge k (4 * words) with hBefore | hLast
    · rw [place_of_outside (Or.inl (by omega))]
      exact ih hBefore
    · -- the last word holds the byte
      obtain ⟨j, rfl⟩ := Nat.exists_eq_add_of_le hLast
      have hByte := holds_place ((blockWrites blockBuffer pos words).foldl writeWord m) (pos + 4 * words)
        (bytesLE 4 (loadLE 4 blockBuffer (4 * words))) j _ (getElem?_bytesLE _ (by omega))
      rw [extract_loadLE blockBuffer _ (by omega), Nat.add_assoc] at hByte
      exact hByte

end Blocks

section Seeks

theorem checkRange_iff {addr base size : BitVec 64} (h : base.toNat + size.toNat < 2 ^ 64) :
    checkRange addr base size = true ↔ base.toNat ≤ addr.toNat ∧ addr.toNat < base.toNat + size.toNat := by
  have hEnd : (base + size).toNat = base.toNat + size.toNat := BitVec.toNat_add_of_lt h
  rw [checkRange, decide_eq_true_iff, BitVec.le_def, BitVec.lt_def, hEnd]

theorem pspinAddrToCorundum_cases {addr : BitVec 64} (h : (pspinAddrToCorundum addr).slt 0 = false) :
    0x1d000000 ≤ addr.toNat ∧ addr.toNat < 0x1d008000 ∧
        (pspinAddrToCorundum addr).toNat = addr.toNat - 0x1d000000 + 0x400000 ∨
      0x1c000000 ≤ addr.toNat ∧ addr.toNat < 0x1c100000 ∧
        (pspinAddrToCorundum addr).toNat = addr.toNat - 0x1c000000 := by
  rw [pspinAddrToCorundum] at h ⊢
  split_ifs at h ⊢ with hProg hHnd
  · obtain ⟨hBase, hEnd⟩ := (checkRange_iff (by decide)).mp hProg
    refine Or.inl ⟨hBase, hEnd, ?_⟩
    have hSub : (addr - pspinProgBase).toNat = addr.toNat - 0x1d000000 := BitVec.toNat_sub_of_le hBase
    have hLt : addr.toNat < 0x1d008000 := hEnd
    rw [BitVec.toNat_add_of_lt (by rw [hSub]; change _ + 0x400000 < _; omega), hSub]
    rfl
  · obtain ⟨hBase, hEnd⟩ := (checkRange_iff (by decide)).mp hHnd
    exact Or.inr ⟨hBase, hEnd, BitVec.toNat_sub_of_le hBase⟩
  · cases h

theorem tyMem_of_ne {type : DeviceType} (h : ¬ type = .tyFifo) : type = .tyMem := by
  cases type with
  | tyMem => rfl
  | tyFifo => exact absurd rfl h

variable {c : Call} {f file : File} {off : BitVec 64}

theorem pspinLlseek_eq_ok (h : pspinLlseek c f off .seekSet = .ok file) :
    f.type = .tyMem ∧ (pspinAddrToCorundum off).slt 0 = false ∧
      file = { f with fPos := pspinAddrToCorundum off } := by
  simp only [pspinLlseek, seekTo] at h
  split_ifs at h with hType hReset hNegative hBounds
  exact ⟨tyMem_of_ne hType, eq_false_of_ne_true hNegative, (Except.ok.inj h).symm⟩

theorem lseek_eq_some (h : lseek c f off .seekSet = some file) :
    f.type = .tyMem ∧ (pspinAddrToCorundum off).slt 0 = false ∧
      file = { f with fPos := pspinAddrToCorundum off } := by
  rw [lseek] at h
  split at h
  · cases h
  · cases hSeek : pspinLlseek c f off .seekSet with
    | error e =>
      rw [hSeek] at h
      cases h
    | ok file' =>
      rw [hSeek] at h
      obtain rfl : file' = file := Option.some.inj h
      exact pspinLlseek_eq_ok hSeek

end Seeks

section Calls

theorem toNat_clamp (x bound : BitVec 64) : (if x > bound then bound else x).toNat = min x.toNat bound.toNat := by
  split
  · rename_i hOver
    exact (Nat.min_eq_right (BitVec.le_of_lt hOver)).symm
  · rename_i hInside
    exact (Nat.min_eq_left (BitVec.not_lt.mp hInside)).symm

theorem toNat_writeCount {fPos count : BitVec 64} (hPos : fPos.toNat ≤ 0x800000)
    (hCount : fPos.toNat + count.toNat < 2 ^ 64) :
    (writeCount fPos count).toNat = min (min count.toNat (0x800000 - fPos.toNat)) 4096 / 4 * 4 := by
  have hSum : (fPos + count).toNat = fPos.toNat + count.toNat := BitVec.toNat_add_of_lt hCount
  have hRest : (pspinMemSize - fPos).toNat = 0x800000 - fPos.toNat := BitVec.toNat_sub_of_le hPos
  have hEnd : (if fPos + count > pspinMemSize then pspinMemSize - fPos else count).toNat =
      min count.toNat (0x800000 - fPos.toNat) := by
    split
    · rename_i hOver
      have hLt : 0x800000 < (fPos + count).toNat := hOver
      omega
    · rename_i hInside
      have hLe : (fPos + count).toNat ≤ 0x800000 := BitVec.not_lt.mp hInside
      omega
  rw [writeCount, BitVec.toNat_ofNat, toNat_clamp, hEnd]
  exact Nat.mod_eq_of_lt (by omega)

structure Serves (c : Call) (f : File) (count : BitVec 64) : Prop where
  refused : c.refused = false
  inReset : c.inReset = false
  killed : c.killed = false
  type : f.type = .tyMem
  fPos : f.fPos < pspinMemSize
  copied : c.copyFault = true → writeCount f.fPos count = 0

variable {c : Call} {user : BitVec 64 → Byte} {f : File} {buf count : BitVec 64}

theorem write_of_serves (h : Serves c f count) :
    write c user f buf count =
      ⟨writeCount f.fPos count, { f with fPos := f.fPos + writeCount f.fPos count },
        blockWrites (fun i => user (buf + BitVec.ofNat 64 i)) f.fPos.toNat
          ((writeCount f.fPos count).toNat / 4)⟩ := by
  have hType : f.type ≠ .tyFifo := by
    rw [h.type]
    decide
  have hCopied : ¬ (c.copyFault = true ∧ writeCount f.fPos count ≠ 0) :=
    fun hFault => hFault.2 (h.copied hFault.1)
  rw [write, if_neg (ne_true_of_eq_false h.refused), pspinWrite, if_neg hType,
    if_neg (ne_true_of_eq_false h.inReset), if_neg (ne_true_of_eq_false h.killed),
    if_neg (BitVec.not_le.mpr h.fPos), if_neg hCopied]

theorem serves_of_pspinWrite {w : Written} (hRefused : c.refused = false)
    (h : pspinWrite c user f buf count = .ok w) : Serves c f count := by
  rw [pspinWrite] at h
  split_ifs at h with hType hReset hKilled hPos hFault
  refine ⟨hRefused, eq_false_of_ne_true hReset, eq_false_of_ne_true hKilled, tyMem_of_ne hType,
    BitVec.not_le.mp hPos, ?_⟩
  intro hCopy
  exact Decidable.byContradiction fun hCount => hFault ⟨hCopy, hCount⟩

theorem write_of_not_serves (h : ¬ Serves c f count) : write c user f buf count = ⟨-1, f, []⟩ := by
  rw [write]
  split
  · rfl
  · rename_i hRefused
    split
    · rfl
    · rename_i w hOk
      exact absurd (serves_of_pspinWrite (eq_false_of_ne_true hRefused) hOk) h

end Calls

end FPsPIN.Driver
