import FPsPIN.Driver.MemoryFile
import FPsPIN.Lib.Run

/-!
# Loading an image

Function fpspin_write_memory seeks to the address and then writes until
nothing is left. It keeps what write returns in an unsigned variable: the test
for an error is never true, and a write that fails makes the length grow by
one and the buffer start a byte earlier. A rest of fewer than four bytes makes
the driver write nothing and report no error, so the loop goes on for ever.

The account of a run is that the bytes written and the rest make the length
and the number of failed calls. The loop ends if the rest is zero, so that a
failed call shows in the bytes written, up to a run of 2^63 calls: beyond that
the length may wrap to zero, and such a run is taken for one that does not end.
-/

namespace FPsPIN.Loader

open FPsPIN.Bytes FPsPIN.Driver Run

inductive Control where
  | looping
  | returned
  | exited
deriving DecidableEq

/-- The variables of fpspin_write_memory, with the writes to the device so far. -/
structure Copy where
  file : File
  hostAddr : BitVec 64
  len : BitVec 64
  writes : List WordWrite
  control : Control

/-- The loop body; nothing happens behind the loop. -/
def copyStep (user : BitVec 64 → Byte) (s : Copy) (c : Call) : Copy :=
  match s.control with
  | .looping =>
    let w := write c user s.file s.hostAddr s.len
    if w.retval < 0 then { s with control := .exited }
    else
      { file := w.file
        hostAddr := s.hostAddr + w.retval
        len := s.len - w.retval
        writes := s.writes ++ w.writes
        control := if s.len - w.retval = 0 then .returned else .looping }
  | .returned => s
  | .exited => s

/-- A call of fpspin_write_memory, with what the kernel decides in its system calls. -/
structure Load where
  fd : Int
  file : File
  pspinAddr : BitVec 32
  hostAddr : BitVec 64
  len : BitVec 64
  user : BitVec 64 → Byte
  seek : Call
  calls : Nat → Call

namespace Load

variable (l : Load)

def off : BitVec 64 := l.pspinAddr.setWidth 64

def start : Copy :=
  if l.fd < 0 then ⟨l.file, l.hostAddr, l.len, [], .exited⟩
  else match lseek l.seek l.file l.off .seekSet with
    | none => ⟨l.file, l.hostAddr, l.len, [], .exited⟩
    | some file => ⟨file, l.hostAddr, l.len, [], .looping⟩

def after (n : Nat) : Copy := stateAt (copyStep l.user) l.start l.calls n

def pos : Nat := (pspinAddrToCorundum l.off).toNat

def buffer : Memory := fun k => l.user (l.hostAddr + BitVec.ofNat 64 k)

def InWindow : Prop :=
  pspinProgBase.toNat ≤ l.pspinAddr.toNat ∧
      l.pspinAddr.toNat + l.len.toNat ≤ pspinProgBase.toNat + pspinProgSize.toNat ∨
    pspinHndBase.toNat ≤ l.pspinAddr.toNat ∧
      l.pspinAddr.toNat + l.len.toNat ≤ pspinHndBase.toNat + pspinHndSize.toNat

/-- The function ends, and if it returns, the image is in the memory m of the device and nothing else
was written. -/
structure WritesImage (m : Memory) : Prop where
  ends : ∃ n < 2 ^ 63, (l.after n).control ≠ .looping
  image : ∀ n, (l.after n).control = .returned →
    ∀ k < l.len.toNat, ((l.after n).writes.foldl writeWord m) (l.pos + k) = l.buffer k
  only : ∀ n, (l.after n).control = .returned →
    ∀ w ∈ (l.after n).writes, l.pos ≤ w.1 ∧ w.1 + 4 ≤ l.pos + l.len.toNat

/-- The calls it takes to write the image block by block. -/
def blocks : Nat := max 1 ((l.len.toNat + 4095) / 4096)

/-- A call of write for the image does not fail. -/
structure Accepts (c : Call) : Prop where
  refused : c.refused = false
  inReset : c.inReset = false
  killed : c.killed = false
  copied : c.copyFault = true → l.len = 0

end Load

section Steps

variable {user : BitVec 64 → Byte} {s : Copy} {c : Call}

theorem copyStep_of_write (hLoop : s.control = .looping) :
    copyStep user s c =
      ⟨(write c user s.file s.hostAddr s.len).file, s.hostAddr + (write c user s.file s.hostAddr s.len).retval,
        s.len - (write c user s.file s.hostAddr s.len).retval,
        s.writes ++ (write c user s.file s.hostAddr s.len).writes,
        if s.len - (write c user s.file s.hostAddr s.len).retval = 0 then .returned else .looping⟩ := by
  simp only [copyStep, hLoop]
  exact if_neg BitVec.not_lt_zero

theorem control_copyStep (hLoop : s.control = .looping) :
    (copyStep user s c).control = if (copyStep user s c).len = 0 then .returned else .looping := by
  rw [copyStep_of_write hLoop]

structure Moves (user : BitVec 64 → Byte) (s s' : Copy) (count : Nat) : Prop where
  type : s'.file.type = s.file.type
  fPos : s'.file.fPos.toNat = s.file.fPos.toNat + count
  len : s'.len.toNat + count = s.len.toNat
  hostAddr : s'.hostAddr = s.hostAddr + BitVec.ofNat 64 count
  writes : s'.writes = s.writes ++
    blockWrites (fun i => user (s.hostAddr + BitVec.ofNat 64 i)) s.file.fPos.toNat (count / 4)

theorem copyStep_moves (hLoop : s.control = .looping) (hServes : Serves c s.file s.len)
    (hPos : s.file.fPos.toNat ≤ 0x800000) (hLen : s.file.fPos.toNat + s.len.toNat < 2 ^ 64) :
    Moves user s (copyStep user s c) (min (min s.len.toNat (0x800000 - s.file.fPos.toNat)) 4096 / 4 * 4) := by
  have hCount := toNat_writeCount hPos hLen
  have hle : (writeCount s.file.fPos s.len).toNat ≤ s.len.toNat := by omega
  rw [copyStep_of_write hLoop, write_of_serves hServes, ← hCount]
  constructor
  · rfl
  · exact BitVec.toNat_add_of_lt (by omega)
  · change (s.len - writeCount s.file.fPos s.len).toNat + _ = _
    rw [BitVec.toNat_sub_of_le hle]
    exact Nat.sub_add_cancel hle
  · rw [BitVec.ofNat_toNat, BitVec.setWidth_eq]
  · rfl

theorem copyStep_ended (h : s.control ≠ .looping) : copyStep user s c = s := by
  cases hControl : s.control with
  | looping => exact absurd hControl h
  | returned => simp only [copyStep, hControl]
  | exited => simp only [copyStep, hControl]

end Steps

namespace Load

variable {l : Load}

theorem after_succ (n : Nat) : l.after (n + 1) = copyStep l.user (l.after n) (l.calls n) := rfl

theorem after_of_ended {n m : Nat} (h : (l.after n).control ≠ .looping) (hm : n ≤ m) : l.after m = l.after n := by
  induction m, hm using Nat.le_induction with
  | base => rfl
  | succ m _ ih => rw [after_succ, ih, copyStep_ended h]

theorem after_eq_of_ended {n m : Nat} (hn : (l.after n).control ≠ .looping)
    (hm : (l.after m).control ≠ .looping) :
    l.after n = l.after m := by
  rcases Nat.le_total n m with hle | hle
  · exact (after_of_ended hn hle).symm
  · exact after_of_ended hm hle

section Accounts

/-- The account of a state in front of which e calls have failed. -/
structure Balanced (l : Load) (s : Copy) (e : Nat) : Prop where
  pos_le : l.pos ≤ s.file.fPos.toNat
  words : (s.file.fPos.toNat - l.pos) % 4 = 0
  fPos_le : s.file.fPos.toNat ≤ 0x800000
  balance : s.len.toNat + s.file.fPos.toNat = l.len.toNat + l.pos + e
  last : l.pos < s.file.fPos.toNat → ∃ w ∈ s.writes, w.1 + 4 = s.file.fPos.toNat
  ended : s.control = .looping ∨ s.control = .returned ∧ s.len = 0

namespace Balanced

variable {s : Copy} {c : Call} {e : Nat}

theorem ended_step (hLoop : s.control = .looping) :
    (copyStep l.user s c).control = .looping ∨
      (copyStep l.user s c).control = .returned ∧ (copyStep l.user s c).len = 0 := by
  rw [control_copyStep hLoop]
  split
  · rename_i hZero
    exact Or.inr ⟨rfl, hZero⟩
  · exact Or.inl rfl

theorem served (h : Balanced l s e) (hBound : l.len.toNat + l.pos + e < 2 ^ 64) (hLoop : s.control = .looping)
    (hServes : Serves c s.file s.len) : Balanced l (copyStep l.user s c) e := by
  have hle := h.pos_le
  have hWords := h.words
  have hPos := h.fPos_le
  have hBalance := h.balance
  have hMoves : Moves l.user s (copyStep l.user s c) _ := copyStep_moves hLoop hServes hPos (by omega)
  obtain ⟨-, hPos', hRest, -, hWrites⟩ := hMoves
  refine ⟨by omega, by omega, by omega, by omega, ?_, ended_step hLoop⟩
  intro hBehind
  rw [hWrites]
  rcases Nat.eq_zero_or_pos (min (min s.len.toNat (0x800000 - s.file.fPos.toNat)) 4096 / 4 * 4 / 4) with
    hNone | hSome
  · obtain ⟨w, hw, hEnd⟩ := h.last (by omega)
    exact ⟨w, List.mem_append_left _ hw, by omega⟩
  · obtain ⟨w, hw, hEnd⟩ := exists_last_blockWrites (fun i => l.user (s.hostAddr + BitVec.ofNat 64 i))
      s.file.fPos.toNat hSome
    exact ⟨w, List.mem_append_right _ hw, by omega⟩

theorem failed (h : Balanced l s e) (hBound : l.len.toNat + l.pos + e + 1 < 2 ^ 64) (hLoop : s.control = .looping)
    (hServes : ¬ Serves c s.file s.len) : Balanced l (copyStep l.user s c) (e + 1) := by
  have hBalance := h.balance
  have hLen : (s.len - (-1)).toNat = s.len.toNat + 1 := by
    rw [BitVec.sub_neg]
    exact BitVec.toNat_add_of_lt (show s.len.toNat + 1 < 2 ^ 64 by omega)
  have hEnded := ended_step (l := l) (c := c) hLoop
  rw [copyStep_of_write hLoop, write_of_not_serves hServes] at hEnded ⊢
  refine ⟨h.pos_le, h.words, h.fPos_le, ?_, ?_, hEnded⟩
  · change (s.len - (-1)).toNat + s.file.fPos.toNat = _
    omega
  · rw [List.append_nil]
    exact h.last

end Balanced

theorem balanced_run {n : Nat} (hStart : Balanced l l.start 0) (hBound : l.len.toNat + l.pos + n < 2 ^ 64) :
    ∃ e, Balanced l (l.after n) e ∧ e ≤ n ∧
      (e = 0 → ∀ k < n, (l.after k).control = .looping →
        Serves (l.calls k) (l.after k).file (l.after k).len) := by
  induction n with
  | zero => exact ⟨0, hStart, Nat.le_refl 0, fun _ k hk => absurd hk (Nat.not_lt_zero k)⟩
  | succ n ih =>
    obtain ⟨e, h, hle, hAll⟩ := ih (by omega)
    rcases h.ended with hLoop | ⟨hReturned, _⟩
    · by_cases hServes : Serves (l.calls n) (l.after n).file (l.after n).len
      · refine ⟨e, h.served (by omega) hLoop hServes, Nat.le_succ_of_le hle, ?_⟩
        intro hZero
        exact Nat.forall_lt_succ_right.mpr ⟨hAll hZero, fun _ => hServes⟩
      · exact ⟨e + 1, h.failed (by omega) hLoop hServes, Nat.succ_le_succ hle, nofun⟩
    · have hEnded : (l.after n).control ≠ .looping := by
        rw [hReturned]
        decide
      refine ⟨e, ?_, Nat.le_succ_of_le hle, ?_⟩
      · rw [after_succ, copyStep_ended hEnded]
        exact h
      · intro hZero
        exact Nat.forall_lt_succ_right.mpr ⟨hAll hZero, fun hLoop => absurd hLoop hEnded⟩

end Accounts

section Blocks

structure Copied (l : Load) (s : Copy) (d : Nat) : Prop where
  words : d % 4 = 0
  type : s.file.type = .tyMem
  fPos : s.file.fPos.toNat = l.pos + d
  hostAddr : s.hostAddr = l.hostAddr + BitVec.ofNat 64 d
  len : s.len.toNat + d = l.len.toNat
  writes : s.writes = blockWrites l.buffer l.pos (d / 4)

namespace Copied

variable {s : Copy} {c : Call} {d : Nat}

theorem count_eq (h : Copied l s d) (hEnd : l.pos + l.len.toNat < 0x800000) (hLen : l.len.toNat % 4 = 0) :
    min (min s.len.toNat (0x800000 - s.file.fPos.toNat)) 4096 / 4 * 4 = min 4096 (l.len.toNat - d) := by
  have hWords := h.words
  have hRest := h.len
  rw [h.fPos]
  omega

theorem serves_iff (h : Copied l s d) (hEnd : l.pos + l.len.toNat < 0x800000) (hLen : l.len.toNat % 4 = 0)
    (hLeft : d < l.len.toNat ∨ l.len = 0) : Serves c s.file s.len ↔ l.Accepts c := by
  have hCount : writeCount s.file.fPos s.len = 0 ↔ l.len = 0 := by
    have hFile := h.fPos
    have hRest := h.len
    rw [← BitVec.toNat_inj, toNat_writeCount (by omega) (by omega), h.count_eq hEnd hLen, ← BitVec.toNat_inj]
    change min 4096 (l.len.toNat - d) = 0 ↔ l.len.toNat = 0
    rcases hLeft with hLess | hZero
    · omega
    · rw [hZero]
      simp
  have hPos : s.file.fPos < pspinMemSize := by
    have hFile := h.fPos
    have hRest := h.len
    change s.file.fPos.toNat < 0x800000
    omega
  constructor
  · intro hServes
    exact ⟨hServes.refused, hServes.inReset, hServes.killed, fun hFault => hCount.mp (hServes.copied hFault)⟩
  · intro hAccepts
    exact ⟨hAccepts.refused, hAccepts.inReset, hAccepts.killed, h.type, hPos,
      fun hFault => hCount.mpr (hAccepts.copied hFault)⟩

theorem step (h : Copied l s d) (hEnd : l.pos + l.len.toNat < 0x800000) (hLen : l.len.toNat % 4 = 0)
    (hLoop : s.control = .looping) (hServes : Serves c s.file s.len) :
    Copied l (copyStep l.user s c) (d + min 4096 (l.len.toNat - d)) := by
  have hCount := h.count_eq hEnd hLen
  obtain ⟨hWords, hType, hPos, hAddr, hRest, hWrites⟩ := h
  have hMoves : Moves l.user s (copyStep l.user s c) _ := copyStep_moves hLoop hServes (by omega) (by omega)
  rw [hCount] at hMoves
  obtain ⟨hType', hPos', hRest', hAddr', hWrites'⟩ := hMoves
  have hBuffer : (fun i => l.user (s.hostAddr + BitVec.ofNat 64 i)) = fun i => l.buffer (4 * (d / 4) + i) := by
    funext i
    have hd : 4 * (d / 4) = d := by omega
    rw [hAddr, hd, buffer, BitVec.ofNat_add, BitVec.add_assoc]
  refine ⟨by omega, hType'.trans hType, by omega, ?_, by omega, ?_⟩
  · rw [hAddr', hAddr, BitVec.ofNat_add, BitVec.add_assoc]
  · have hStart : l.pos + d = l.pos + 4 * (d / 4) := by omega
    have hSum : (d + min 4096 (l.len.toNat - d)) / 4 = d / 4 + min 4096 (l.len.toNat - d) / 4 := by omega
    rw [hWrites', hWrites, hBuffer, hPos, hStart, hSum, blockWrites_add]

end Copied

theorem lseek_window {file : File} (hWindow : l.InWindow)
    (hSeek : lseek l.seek l.file l.off .seekSet = some file) :
    file.type = .tyMem ∧ file.fPos.toNat = l.pos ∧ l.pos + l.len.toNat < 0x800000 := by
  obtain ⟨hType, hSigned, rfl⟩ := lseek_eq_some hSeek
  refine ⟨hType, rfl, ?_⟩
  have hOff : l.off.toNat = l.pspinAddr.toNat := BitVec.toNat_setWidth_of_le (by decide)
  have hPos : l.pos = (pspinAddrToCorundum l.off).toNat := rfl
  -- a seek behind the end of a memory fails, so both name the same memory
  rcases hWindow with ⟨hBase, hEnd⟩ | ⟨hBase, hEnd⟩
  · change 0x1d000000 ≤ _ at hBase
    change _ ≤ 0x1d000000 + 0x8000 at hEnd
    rcases pspinAddrToCorundum_cases hSigned with hProg | hHnd <;> omega
  · change 0x1c000000 ≤ _ at hBase
    change _ ≤ 0x1c000000 + 0x100000 at hEnd
    rcases pspinAddrToCorundum_cases hSigned with hProg | hHnd <;> omega

structure Started (l : Load) : Prop where
  control : l.start.control = .looping
  copied : Copied l l.start 0
  fits : l.pos + l.len.toNat < 0x800000

theorem started_of_seek {file : File} (hWindow : l.InWindow) (hFd : ¬ l.fd < 0)
    (hSeek : lseek l.seek l.file l.off .seekSet = some file) : Started l := by
  obtain ⟨hType, hPos, hFits⟩ := lseek_window hWindow hSeek
  have hStart : l.start = ⟨file, l.hostAddr, l.len, [], .looping⟩ := by
    rw [start, if_neg hFd, hSeek]
  refine ⟨?_, ?_, hFits⟩
  · rw [hStart]
  · rw [hStart]
    exact ⟨rfl, hType, hPos, (BitVec.add_zero _).symm, rfl, rfl⟩

namespace Started

theorem balanced (h : Started l) : Balanced l l.start 0 := by
  have hPos := h.copied.fPos
  have hLen := h.copied.len
  have hFits := h.fits
  exact ⟨by omega, by omega, by omega, by omega, fun hBehind => absurd hBehind (by omega), Or.inl h.control⟩

theorem left_of_lt {k : Nat} (hk : k < l.blocks) : min (4096 * k) l.len.toNat < l.len.toNat ∨ l.len = 0 := by
  rw [blocks] at hk
  rw [← BitVec.toNat_inj]
  change _ ∨ l.len.toNat = 0
  omega

theorem copied_run (h : Started l) (hLen : l.len.toNat % 4 = 0) {k : Nat} (hk : k ≤ l.blocks)
    (hAccepts : ∀ j < k, l.Accepts (l.calls j)) :
    Copied l (l.after k) (min (4096 * k) l.len.toNat) ∧
      (l.after k).control = if k < l.blocks then .looping else .returned := by
  induction k with
  | zero =>
    have hFirst : 0 < l.blocks := by
      rw [blocks]
      omega
    rw [if_pos hFirst]
    have hZero : min (4096 * 0) l.len.toNat = 0 := by omega
    rw [hZero]
    exact ⟨h.copied, h.control⟩
  | succ k ih =>
    obtain ⟨hCopied, hControl⟩ := ih (Nat.le_of_succ_le hk) fun j hj => hAccepts j (Nat.lt_succ_of_lt hj)
    rw [if_pos (Nat.lt_of_succ_le hk)] at hControl
    have hServes := (hCopied.serves_iff h.fits hLen (left_of_lt hk)).mpr (hAccepts k (Nat.lt_succ_self k))
    have hNext := hCopied.step h.fits hLen hControl hServes
    have hSum : min (4096 * k) l.len.toNat + min 4096 (l.len.toNat - min (4096 * k) l.len.toNat) =
        min (4096 * (k + 1)) l.len.toNat := by omega
    rw [hSum, ← after_succ] at hNext
    refine ⟨hNext, ?_⟩
    have hRest := hNext.len
    have hEnd : (l.after (k + 1)).len = 0 ↔ ¬ k + 1 < l.blocks := by
      rw [← BitVec.toNat_inj, blocks]
      change (l.after (k + 1)).len.toNat = 0 ↔ _
      omega
    have hBranch : (l.after (k + 1)).control = if (l.after (k + 1)).len = 0 then .returned else .looping :=
      control_copyStep hControl
    rw [hBranch]
    simp only [hEnd, ite_not]

/-- A failed call or a rest shows in what is written. -/
theorem account (h : Started l) {m : Memory} (hImage : l.WritesImage m) :
    ∃ n, (l.after n).control ≠ .looping ∧ l.len.toNat % 4 = 0 ∧
      ∀ k < n, (l.after k).control = .looping → Serves (l.calls k) (l.after k).file (l.after k).len := by
  obtain ⟨n, hn, hEnded⟩ := hImage.ends
  have hFits := h.fits
  obtain ⟨e, hBalanced, hle, hServes⟩ := balanced_run (n := n) h.balanced (by omega)
  obtain ⟨hReturned, hRest⟩ := hBalanced.ended.resolve_left hEnded
  have hBalance := hBalanced.balance
  have hZero : (l.after n).len.toNat = 0 := by
    rw [hRest]
    rfl
  have hInside : (l.after n).file.fPos.toNat ≤ l.pos + l.len.toNat := by
    rcases Nat.lt_or_ge l.pos (l.after n).file.fPos.toNat with hSome | hNone
    · obtain ⟨w, hw, hLast⟩ := hBalanced.last hSome
      have hOnly := hImage.only n hReturned w hw
      omega
    · omega
  have hWords := hBalanced.words
  exact ⟨n, hEnded, by omega, hServes (by omega)⟩

theorem accepts_of_writesImage (h : Started l) {m : Memory} (hImage : l.WritesImage m) :
    l.len.toNat % 4 = 0 ∧ ∀ k < l.blocks, l.Accepts (l.calls k) := by
  obtain ⟨n, hEnded, hLen, hServes⟩ := h.account hImage
  refine ⟨hLen, ?_⟩
  intro k
  induction k using Nat.strongRecOn with
  | ind k ih =>
    intro hk
    obtain ⟨hCopied, hControl⟩ := h.copied_run hLen (Nat.le_of_lt hk) fun j hj => ih j hj (Nat.lt_trans hj hk)
    rw [if_pos hk] at hControl
    have hBefore : k < n := by
      by_contra hBehind
      rw [after_of_ended hEnded (Nat.le_of_not_lt hBehind)] at hControl
      exact hEnded hControl
    exact (hCopied.serves_iff h.fits hLen (left_of_lt hk)).mp (hServes k hBefore hControl)

theorem writesImage_of_accepts (h : Started l) (m : Memory) (hLen : l.len.toNat % 4 = 0)
    (hAccepts : ∀ k < l.blocks, l.Accepts (l.calls k)) : l.WritesImage m := by
  obtain ⟨hCopied, hControl⟩ := h.copied_run hLen (Nat.le_refl l.blocks) hAccepts
  rw [if_neg (Nat.lt_irrefl _)] at hControl
  have hEnded : (l.after l.blocks).control ≠ .looping := by
    rw [hControl]
    decide
  have hAll : min (4096 * l.blocks) l.len.toNat = l.len.toNat := by
    rw [blocks]
    omega
  rw [hAll] at hCopied
  have hReturned : ∀ n, (l.after n).control = .returned →
      (l.after n).writes = blockWrites l.buffer l.pos (l.len.toNat / 4) := by
    intro n hn
    rw [after_eq_of_ended (by rw [hn]; decide) hEnded]
    exact hCopied.writes
  constructor
  · have hFits := h.fits
    exact ⟨l.blocks, by rw [blocks]; omega, hEnded⟩
  · intro n hn k hk
    rw [hReturned n hn]
    exact blockWrites_memory m l.buffer l.pos _ (by omega)
  · intro n hn w hw
    rw [hReturned n hn] at hw
    have hRange := mem_blockWrites hw
    omega

end Started

end Blocks

section Exits

variable (h : l.fd < 0 ∨ lseek l.seek l.file l.off .seekSet = none)

include h

theorem start_exited : l.start.control = .exited := by
  rw [start]
  split
  · rfl
  · rename_i hFd
    rw [h.resolve_left hFd]

theorem writesImage_of_exit (m : Memory) : l.WritesImage m := by
  have hStart : (l.after 0).control = .exited := start_exited h
  have hEnded : (l.after 0).control ≠ .looping := by
    rw [hStart]
    decide
  have hNever : ∀ n, (l.after n).control ≠ .returned := by
    intro n
    rw [after_of_ended hEnded (Nat.zero_le n), hStart]
    decide
  exact ⟨⟨0, by decide, hEnded⟩, fun n hn => absurd hn (hNever n), fun n hn => absurd hn (hNever n)⟩

end Exits

/-- The image is written exactly if the function exits before its loop, or the length is in words and no
call of write fails. -/
theorem writesImage_iff (l : Load) (m : Memory) (hWindow : l.InWindow) :
    l.WritesImage m ↔
      (l.fd < 0 ∨ lseek l.seek l.file l.off .seekSet = none) ∨
        l.len.toNat % 4 = 0 ∧ ∀ k < l.blocks, l.Accepts (l.calls k) := by
  by_cases hExit : l.fd < 0 ∨ lseek l.seek l.file l.off .seekSet = none
  · exact iff_of_true (writesImage_of_exit hExit m) (Or.inl hExit)
  · obtain ⟨hFd, hSeek⟩ := not_or.mp hExit
    obtain ⟨file, hFile⟩ := Option.ne_none_iff_exists'.mp hSeek
    have hStarted := started_of_seek hWindow hFd hFile
    constructor
    · intro hImage
      exact Or.inr (hStarted.accepts_of_writesImage hImage)
    · rintro (hExited | ⟨hLen, hAccepts⟩)
      · exact absurd hExited hExit
      · exact hStarted.writesImage_of_accepts m hLen hAccepts

section Inputs

def quietCall : Call := ⟨false, false, false, false⟩

def textLoad (len : BitVec 64) (calls : Nat → Call) : Load where
  fd := 3
  file := ⟨.tyMem, 0⟩
  pspinAddr := 0x1d000100
  hostAddr := 0x7ffe00000000
  len := len
  user a := a.setWidth 8
  seek := quietCall
  calls := calls

theorem textLoad_started {len : BitVec 64} {calls : Nat → Call} (h : (textLoad len calls).InWindow) :
    Started (textLoad len calls) := by
  have hSeek : lseek quietCall ⟨.tyMem, 0⟩ 0x1d000100 .seekSet = some ⟨.tyMem, 0x400100⟩ := by decide
  have hFd : ¬ (3 : Int) < 0 := by decide
  exact started_of_seek h hFd hSeek

theorem writesImage_twoBlocks :
    (textLoad 0x1004 fun _ => quietCall).InWindow ∧
    (textLoad 0x1004 fun _ => quietCall).WritesImage fun _ => 0 := by
  have hWindow : (textLoad 0x1004 fun _ => quietCall).InWindow := Or.inl (by decide)
  exact ⟨hWindow, (writesImage_iff _ _ hWindow).mpr (Or.inr ⟨rfl, fun _ _ => ⟨rfl, rfl, rfl, nofun⟩⟩)⟩

/-- A section of six bytes, and one of four bytes whose first write is interrupted. -/
theorem writesImage_fails :
    ((textLoad 6 fun _ => quietCall).InWindow ∧ ∀ m, ¬ (textLoad 6 fun _ => quietCall).WritesImage m) ∧
      (textLoad 4 fun k => { quietCall with killed := k == 0 }).InWindow ∧
        ∀ m, ¬ (textLoad 4 fun k => { quietCall with killed := k == 0 }).WritesImage m := by
  have hSix : (textLoad 6 fun _ => quietCall).InWindow := Or.inl (by decide)
  have hFour : (textLoad 4 fun k => { quietCall with killed := k == 0 }).InWindow := Or.inl (by decide)
  refine ⟨⟨hSix, fun m hImage => ?_⟩, hFour, fun m hImage => ?_⟩
  · have hLen := ((textLoad_started hSix).accepts_of_writesImage hImage).1
    exact absurd hLen (by decide)
  · have hAccepts := ((textLoad_started hFour).accepts_of_writesImage hImage).2 0 (by decide)
    exact absurd hAccepts.killed (by decide)

end Inputs

end Load

end FPsPIN.Loader
