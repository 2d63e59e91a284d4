import FPsPIN.Driver.MemoryFile
import FPsPIN.Lib.Trace

/-!
# Calls on the device files

One read function serves the memory device and the standard output of the
clusters. On the memory it reads a block of words and advances the position.
On the FIFO it takes words until a block is full or none comes in time, and
the number of bytes asked for has no influence on that.

A session is any sequence of the calls of user space, on any number of open
files. It keeps the offsets of the device words that were accessed, the words
taken out of the FIFO, and what successful reads of the FIFO delivered.
-/

namespace FPsPIN.Driver

open FPsPIN.Bytes

inductive CallErrno where
  | common (e : Errno)
  | enodev
  | erestartsys
  | enotty
  | enomem
  | eagain
  | eio
deriving DecidableEq

section Read

/-- One turn of the loop over the FIFO: the device is about to go away, the wait for a word was
interrupted or timed out, or the register had a word. -/
inductive FifoTurn where
  | exiting
  | interrupted
  | timeout
  | word (reg : BitVec 32)
deriving DecidableEq

inductive FifoEnd where
  | stopped (e : CallErrno) (blockBuffer : List (BitVec 32))
  | gathered (blockBuffer : List (BitVec 32))
deriving DecidableEq

/-- The loop of pspin_read over the FIFO; off is four times the number of words. Without further turns
it has not returned. -/
def fifoLoop (blockBuffer : List (BitVec 32)) : List FifoTurn → Option FifoEnd
  | [] => if pspinBlockSize.toNat ≤ 4 * blockBuffer.length then some (.gathered blockBuffer) else none
  | turn :: turns =>
    if pspinBlockSize.toNat ≤ 4 * blockBuffer.length then some (.gathered blockBuffer)
    else match turn with
      | .exiting => some (.stopped (.common .eintr) blockBuffer)
      | .interrupted => some (.stopped .erestartsys blockBuffer)
      | .timeout => if blockBuffer = [] then fifoLoop blockBuffer turns else some (.gathered blockBuffer)
      | .word reg => fifoLoop (blockBuffer ++ [reg]) turns

/-- A call of read: refused before the driver is entered, the cluster in reset, the device about to go
away, the wait for the mutex killed, the bytes that copy_to_user can write, and the turns of the loop. -/
structure ReadCall where
  refused : Bool
  inReset : Bool
  exiting : Bool
  killed : Bool
  userBytes : Nat
  turns : List FifoTurn

structure ReadOutcome where
  retval : Except CallErrno Nat
  file : File
  /-- Bytes that reached the user, also where the copy failed. -/
  copied : List Byte
  /-- Offsets of the words of device memory. -/
  reads : List Nat
  /-- Words taken out of the FIFO. -/
  taken : List (BitVec 32)

def wordBytes (words : List (BitVec 32)) : List Byte := words.flatMap fun w => bytesLE 4 w

/-- The end of pspin_read: only a file of the memory has a position. -/
def copyToUser (c : ReadCall) (f : File) (blockBuffer : List (BitVec 32)) (reads : List Nat)
    (taken : List (BitVec 32)) : ReadOutcome :=
  if (wordBytes blockBuffer).length ≤ c.userBytes then
    { retval := .ok (wordBytes blockBuffer).length
      file := match f.type with
        | .tyMem => { f with fPos := f.fPos + BitVec.ofNat 64 (wordBytes blockBuffer).length }
        | .tyFifo => f
      copied := wordBytes blockBuffer
      reads := reads
      taken := taken }
  else
    { retval := .error (.common .efault)
      file := f
      copied := (wordBytes blockBuffer).take c.userBytes
      reads := reads
      taken := taken }

def blockOffsets (pos words : Nat) : List Nat := (List.range words).map fun i => pos + 4 * i

/-- Function pspin_read. The count of a read of the memory is bounded like that of a write. -/
def pspinRead (c : ReadCall) (mem : Nat → BitVec 32) (f : File) (count : BitVec 64) : Option ReadOutcome :=
  if f.type = .tyMem ∧ c.inReset then some ⟨.error (.common .eperm), f, [], [], []⟩
  else if c.exiting then some ⟨.error .enodev, f, [], [], []⟩
  else if c.killed then some ⟨.error (.common .eintr), f, [], [], []⟩
  else match f.type with
    | .tyMem =>
      if pspinMemSize ≤ f.fPos then some ⟨.ok 0, f, [], [], []⟩
      else
        let offsets := blockOffsets f.fPos.toNat ((writeCount f.fPos count).toNat / 4)
        some (copyToUser c f (offsets.map mem) offsets [])
    | .tyFifo =>
      match fifoLoop [] c.turns with
      | none => none
      | some (.stopped e blockBuffer) => some ⟨.error e, f, [], [], blockBuffer⟩
      | some (.gathered blockBuffer) => some (copyToUser c f blockBuffer [] blockBuffer)

structure ReadsMemory (c : ReadCall) (f : File) : Prop where
  inReset : c.inReset = false
  exiting : c.exiting = false
  killed : c.killed = false
  type : f.type = .tyMem
  fPos : f.fPos < pspinMemSize

structure DrainsFifo (c : ReadCall) (f : File) : Prop where
  exiting : c.exiting = false
  killed : c.killed = false
  type : f.type = .tyFifo

inductive ReadCase (c : ReadCall) (mem : Nat → BitVec 32) (f : File) (count : BitVec 64) : ReadOutcome →
  Prop where
  | failed (e : CallErrno) (hMem : ¬ ReadsMemory c f) (hFifo : ¬ DrainsFifo c f) :
      ReadCase c mem f count ⟨.error e, f, [], [], []⟩
  | atEnd (hMem : ¬ ReadsMemory c f) (hType : f.type = .tyMem) : ReadCase c mem f count ⟨.ok 0, f, [], [], []⟩
  | memory (h : ReadsMemory c f) :
      ReadCase c mem f count
        (copyToUser c f ((blockOffsets f.fPos.toNat ((writeCount f.fPos count).toNat / 4)).map mem)
          (blockOffsets f.fPos.toNat ((writeCount f.fPos count).toNat / 4)) [])
  | stopped (h : DrainsFifo c f) (e : CallErrno) (blockBuffer : List (BitVec 32))
      (hLoop : fifoLoop [] c.turns = some (.stopped e blockBuffer)) :
      ReadCase c mem f count ⟨.error e, f, [], [], blockBuffer⟩
  | gathered (h : DrainsFifo c f) (blockBuffer : List (BitVec 32))
      (hLoop : fifoLoop [] c.turns = some (.gathered blockBuffer)) :
      ReadCase c mem f count (copyToUser c f blockBuffer [] blockBuffer)

theorem pspinRead_cases {c : ReadCall} {mem : Nat → BitVec 32} {f : File} {count : BitVec 64} {o : ReadOutcome}
    (h : pspinRead c mem f count = some o) : ReadCase c mem f count o := by
  rw [pspinRead] at h
  split at h
  · rename_i hReset
    cases h
    refine .failed _ (fun hMem => ?_) (fun hFifo => ?_)
    · exact absurd (hReset.2.symm.trans hMem.inReset) (by decide)
    · exact absurd (hReset.1.symm.trans hFifo.type) (by decide)
  · rename_i hReset
    split at h
    · rename_i hExiting
      cases h
      refine .failed _ (fun hMem => ?_) (fun hFifo => ?_)
      · exact absurd (hExiting.symm.trans hMem.exiting) (by decide)
      · exact absurd (hExiting.symm.trans hFifo.exiting) (by decide)
    · rename_i hExiting
      split at h
      · rename_i hKilled
        cases h
        refine .failed _ (fun hMem => ?_) (fun hFifo => ?_)
        · exact absurd (hKilled.symm.trans hMem.killed) (by decide)
        · exact absurd (hKilled.symm.trans hFifo.killed) (by decide)
      · rename_i hKilled
        have hExiting := eq_false_of_ne_true hExiting
        have hKilled := eq_false_of_ne_true hKilled
        split at h
        · rename_i hType
          split at h
          · rename_i hPos
            cases h
            exact .atEnd (fun hMem => absurd hMem.fPos (BitVec.not_lt.mpr hPos)) hType
          · rename_i hPos
            cases h
            have hIn : c.inReset = false := eq_false_of_ne_true fun hIn => hReset ⟨hType, hIn⟩
            exact .memory ⟨hIn, hExiting, hKilled, hType, BitVec.not_le.mp hPos⟩
        · rename_i hType
          have hDrains : DrainsFifo c f := ⟨hExiting, hKilled, hType⟩
          split at h
          · cases h
          · rename_i e blockBuffer hLoop
            cases h
            exact .stopped hDrains e blockBuffer hLoop
          · rename_i blockBuffer hLoop
            cases h
            exact .gathered hDrains blockBuffer hLoop

end Read

section Ioctl

inductive IoctlCmd where
  | hostdmaQuery
  | hostWrite
  | hostRead
  | unknown
deriving DecidableEq

/-- The message of an ioctl and the copies of its parts that fail. -/
structure IoctlMsg where
  ctxId : BitVec 32
  addr : BitVec 64
  data : BitVec 64
  requestFault : Bool
  dataFault : Bool
  responseFault : Bool

structure IoctlOutcome where
  retval : Except CallErrno Unit
  /-- Indices into dma_areas. -/
  indexed : List Int
  writes : List WordWrite
  reads : List Nat
  /-- The answer to a read. -/
  word : Option (BitVec 64)

def IoctlOutcome.failed (e : CallErrno) : IoctlOutcome := ⟨.error e, [], [], [], none⟩

/-- Function pspin_ioctl. A word of eight bytes is accessed as its low half and then its high half; the
comparison of the context is signed. -/
def pspinIoctl (mem : Nat → BitVec 32) (f : File) (cmd : IoctlCmd) (msg : IoctlMsg) : IoctlOutcome :=
  if f.type = .tyFifo then .failed .enotty
  else match cmd with
    | .hostdmaQuery =>
      if msg.requestFault then .failed (.common .efault)
      else if 4 ≤ msg.ctxId.toInt then .failed (.common .einval)
      else
        ⟨if msg.responseFault then .error (.common .efault) else .ok (), [msg.ctxId.toInt], [], [], none⟩
    | .hostWrite =>
      if msg.requestFault then .failed (.common .efault)
      else if (pspinAddrToCorundum msg.addr).slt 0 then .failed (.common .efault)
      else if msg.dataFault then .failed (.common .efault)
      else
        let off := (pspinAddrToCorundum msg.addr).toNat
        ⟨.ok (), [], [(off, msg.data.extractLsb' 0 32), (off + 4, msg.data.extractLsb' 32 32)], [], none⟩
    | .hostRead =>
      if msg.requestFault then .failed (.common .efault)
      else if (pspinAddrToCorundum msg.addr).slt 0 then .failed (.common .efault)
      else
        let off := (pspinAddrToCorundum msg.addr).toNat
        if msg.responseFault then ⟨.error (.common .efault), [], [], [off, off + 4], none⟩
        else ⟨.ok (), [], [], [off, off + 4], some (mem (off + 4) ++ mem off)⟩
    | .unknown => .failed .enotty

end Ioctl

section Sessions

/-- A call with what the kernel decides in it and, where it reads, the device words it finds. -/
inductive FileCall where
  | llseek (c : Call) (off : BitVec 64) (whence : Whence)
  | read (c : ReadCall) (mem : Nat → BitVec 32) (count : BitVec 64)
  | write (c : Call) (user : BitVec 64 → Byte) (buf count : BitVec 64)
  | ioctl (refused : Bool) (mem : Nat → BitVec 32) (cmd : IoctlCmd) (msg : IoctlMsg)

/-- What a call does: to its file, to the device, and to the stream out of the FIFO. -/
structure Effect where
  file : File
  accessed : List Nat
  taken : List (BitVec 32)
  delivered : List Byte

def Effect.idle (f : File) : Effect := ⟨f, [], [], []⟩

/-- What the user has from the FIFO after a read: the copy of a read that failed does not count. -/
def ReadOutcome.delivered (o : ReadOutcome) : List Byte :=
  match o.file.type, o.retval with
  | .tyFifo, .ok _ => o.copied
  | _, _ => []

def ReadOutcome.effect (o : ReadOutcome) : Effect := ⟨o.file, o.reads, o.taken, o.delivered⟩

/-- A read of the FIFO that has not returned has no effect yet. -/
def FileCall.effect (f : File) : FileCall → Option Effect
  | .llseek c off whence => some (Effect.idle ((lseek c f off whence).getD f))
  | .read c mem count =>
    if c.refused then some (Effect.idle f) else (pspinRead c mem f count).map ReadOutcome.effect
  | .write c user buf count =>
    let w := Driver.write c user f buf count
    some ⟨w.file, w.writes.map Prod.fst, [], []⟩
  | .ioctl refused mem cmd msg =>
    if refused then some (Effect.idle f)
    else
      let o := pspinIoctl mem f cmd msg
      some ⟨f, o.writes.map Prod.fst ++ o.reads, [], []⟩

structure Session where
  files : Nat → File
  accessed : List Nat
  taken : List (BitVec 32)
  delivered : List Byte

def Session.after (s : Session) (fd : Nat) (e : Effect) : Session where
  files := Function.update s.files fd e.file
  accessed := s.accessed ++ e.accessed
  taken := s.taken ++ e.taken
  delivered := s.delivered ++ e.delivered

def Session.step (s : Session) (a : Nat × FileCall) : Option Session :=
  (a.2.effect (s.files a.1)).map (s.after a.1)

def Session.opened (types : Nat → DeviceType) : Session := ⟨fun fd => ⟨types fd, 0⟩, [], [], []⟩

theorem Session.step_eq_some {s s' : Session} {a : Nat × FileCall} (h : s.step a = some s') :
    ∃ e, a.2.effect (s.files a.1) = some e ∧ s' = s.after a.1 e := by
  obtain ⟨e, hEffect, rfl⟩ := Option.map_eq_some_iff.mp h
  exact ⟨e, hEffect, rfl⟩

end Sessions

end FPsPIN.Driver
