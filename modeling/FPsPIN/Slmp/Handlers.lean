import FPsPIN.Lib.Trace
import FPsPIN.HostReq.Flag
import FPsPIN.Slmp.Packets

/-!
# The message handlers

Functions slmp_hh, slmp_ph and slmp_th on the frames of one message. Each task
has its own copy of the frame in L1. A payload handler issues a write of its
payload to the host and, if asked to, turns the header of its copy into an
acknowledgement and sends it; stores to the copy, bytes of the write and the
steps of all other tasks interleave in any way. The header handler runs first;
the completion handler runs when the payload handlers have returned and their
commands are finished.
-/

namespace FPsPIN.Slmp

open FPsPIN.Bytes FPsPIN.HostReq

section Acknowledgement

variable (l1 : Memory)

/-- One pass of the loop of ip_checksum. -/
def addWord (acc : BitVec 32) (word : BitVec 16) : BitVec 32 :=
  let sum := acc + (bswap16 word).setWidth 32
  if sum > 0xffff then sum - 0xffff else sum

/-- Function ip_checksum on the length bytes from an address on. -/
def ipChecksum (a length : Nat) : BitVec 16 :=
  let words := (List.range (length / 2)).map fun k => loadLE 2 l1 (a + 2 * k)
  let odd := if length % 2 = 1 then [(l1 (a + length - 1)).setWidth 16] else []
  bswap16 ((~~~ (words ++ odd).foldl addWord 0xffff).setWidth 16)

def readBytes (a n : Nat) : List Byte := (List.range n).map fun k => l1 (a + k)

/-- A store of some bytes at an offset of the packet. -/
abbrev Store := Nat × List Byte

def applyStores (stores : List Store) : Memory := stores.foldl (fun m st => place m st.1 st.2) l1

/-- Stores of prepare_hdrs_ack up to the cleared IP checksum: swapped addresses and the IP length. -/
def addressStores : List Store :=
  [(36, readBytes l1 34 2), (34, readBytes l1 36 2), (30, readBytes l1 26 4), (26, readBytes l1 30 4),
    (0, readBytes l1 6 6), (6, readBytes l1 0 6), (16, bytesLE 2 (bswap16 38)), (24, bytesLE 2 0)]

/-- The stores of prepare_hdrs_ack, in order. -/
def prepareHdrsAck (flags : BitVec 16) : List Store :=
  addressStores l1 ++
    [(24, bytesLE 2 (ipChecksum (applyStores l1 (addressStores l1)) 14 20)), (udpLengthAt, bytesLE 2 (bswap16 18)),
      (40, bytesLE 2 0), (slmpHdrAt, bytesLE 2 (bswap16 flags))]

@[simp] theorem length_readBytes (a n : Nat) : (readBytes l1 a n).length = n := by
  simp [readBytes]

theorem prepareHdrsAck_within (flags : BitVec 16) :
    ∀ st ∈ prepareHdrsAck l1 flags, st.1 + st.2.length ≤ payloadAt := by
  simp [prepareHdrsAck, addressStores, payloadAt, udpLengthAt, slmpHdrAt]

end Acknowledgement

/-- What the handlers print. -/
inductive Message where
  | hhOffset (pktOff : BitVec 32)
  | hhNoSyn (flags : BitVec 16)
  | thNoEom (flags : BitVec 16)
deriving DecidableEq

/-- The errors slmp_hh reports for its packet; it does nothing else. -/
def slmpHh (l1 : Memory) : List Message :=
  if pktOffOf l1 ≠ 0 then [.hhOffset (pktOffOf l1)]
  else if syn (flagsOf l1) then [] else [.hhNoSyn (flagsOf l1)]

inductive PhPc where
  | waiting
  | acking (stores : List Store)
  | returned
deriving DecidableEq

/-- A write to the host: where to, and the bytes still to come. -/
structure DmaToHost where
  hostAddr : BitVec 64
  pending : List Nat

structure PayloadTask where
  pc : PhPc
  l1 : Memory
  dma : DmaToHost
  /-- The acknowledgement is being sent. -/
  sending : Bool

/-- Where the message goes: behind the pages of the HPUs. -/
def hostStartAddr (hostAddr : BitVec 64) : BitVec 64 := hostAddr + BitVec.ofNat 64 (coreCount * pageSize)

/-- Function slmp_ph up to its write command. -/
def slmpPh (hostAddr : BitVec 64) (task : PayloadTask) : PayloadTask :=
  { task with
    pc := if syn (flagsOf task.l1) then .acking (prepareHdrsAck task.l1 mkAck) else .returned
    dma := ⟨hostStartAddr hostAddr + (pktOffOf task.l1).setWidth 64, List.range (slmpPayloadLen task.l1).toNat⟩ }

/-- The length slmp_th reports for its packet. -/
def totalLen (l1 : Memory) : BitVec 32 := pktOffOf l1 + slmpPayloadLen l1

/-- The tasks of one message: host memory of the context, frames in order of arrival, HPU of the completion handler. -/
structure Job where
  hostAddr : BitVec 64
  count : Nat
  frame : Nat → Memory
  hpu : HpuId
  dmaIdx : BitVec 8

structure HandlerState where
  host : Memory
  headerDone : Bool
  task : Nat → PayloadTask
  completed : Bool
  notified : Option Flag
  printed : List Message

def HandlerState.init (job : Job) (host : Memory) : HandlerState where
  host := host
  headerDone := false
  task i := ⟨.waiting, job.frame i, ⟨0, []⟩, false⟩
  completed := false
  notified := none
  printed := []

inductive HandlerAction where
  | header
  | start (i : Nat)
  | store (i : Nat)
  | sendPacket (i : Nat)
  | copy (i j : Nat)
  | packetSent (i : Nat)
  | complete

def PayloadTask.finished (task : PayloadTask) : Bool :=
  task.pc == .returned && task.dma.pending.isEmpty && !task.sending

namespace HandlerState

variable (s : HandlerState)

def setTask (i : Nat) (task : PayloadTask) : HandlerState := { s with task := Function.update s.task i task }

/-- Byte j of the payload of a task reaches the host. -/
def copyByte (i j : Nat) : HandlerState :=
  { s with
    host := Function.update s.host ((s.task i).dma.hostAddr.toNat + j) ((s.task i).l1 (payloadAt + j))
    task := Function.update s.task i
      { s.task i with dma := { (s.task i).dma with pending := (s.task i).dma.pending.erase j } } }

/-- Function slmp_th on the last packet, up to its request to the host. -/
def slmpTh (job : Job) : HandlerState :=
  let l1 := job.frame (job.count - 1)
  let flag := flagToHost job.dmaIdx job.hpu (totalLen l1)
  if eom (flagsOf l1) then
    { s with
      completed := true
      notified := some flag
      host := place s.host (hostAddrHpu job.hostAddr job.hpu).toNat (bytesLE 8 flag.data) }
  else { s with completed := true, printed := s.printed ++ [.thNoEom (flagsOf l1)] }

end HandlerState

def handlerStep (job : Job) (s : HandlerState) : HandlerAction → Option HandlerState
  | .header =>
    if s.headerDone then none
    else some { s with headerDone := true, printed := s.printed ++ slmpHh (job.frame 0) }
  | .start i =>
    if s.headerDone ∧ i < job.count ∧ (s.task i).pc = .waiting then
      some (s.setTask i (slmpPh job.hostAddr (s.task i)))
    else none
  | .store i =>
    match (s.task i).pc with
    | .acking (st :: stores) =>
      some (s.setTask i { s.task i with pc := .acking stores, l1 := place (s.task i).l1 st.1 st.2 })
    | _ => none
  | .sendPacket i =>
    if (s.task i).pc = .acking [] then some (s.setTask i { s.task i with pc := .returned, sending := true }) else none
  | .copy i j => if j ∈ (s.task i).dma.pending then some (s.copyByte i j) else none
  | .packetSent i => if (s.task i).sending then some (s.setTask i { s.task i with sending := false }) else none
  | .complete =>
    if s.headerDone ∧ ¬ s.completed ∧ ((List.range job.count).all fun i => (s.task i).finished) then
      some (s.slmpTh job)
    else none

section Tasks

variable {job : Job} {s s' : HandlerState}

/-- What a step of the handlers can do. -/
inductive HandlerStep (job : Job) (s : HandlerState) : HandlerState → Prop where
  | header (hOpen : s.headerDone = false) :
    HandlerStep job s { s with headerDone := true, printed := s.printed ++ slmpHh (job.frame 0) }
  | start {i : Nat} (hHeader : s.headerDone = true) (hLt : i < job.count) (hPc : (s.task i).pc = .waiting) :
    HandlerStep job s (s.setTask i (slmpPh job.hostAddr (s.task i)))
  | store {i : Nat} {st : Store} {stores : List Store} (hPc : (s.task i).pc = .acking (st :: stores)) :
    HandlerStep job s (s.setTask i { s.task i with pc := .acking stores, l1 := place (s.task i).l1 st.1 st.2 })
  | sendPacket {i : Nat} (hPc : (s.task i).pc = .acking []) :
    HandlerStep job s (s.setTask i { s.task i with pc := .returned, sending := true })
  | copy {i j : Nat} (hMem : j ∈ (s.task i).dma.pending) : HandlerStep job s (s.copyByte i j)
  | packetSent {i : Nat} (hSending : (s.task i).sending = true) :
    HandlerStep job s (s.setTask i { s.task i with sending := false })
  | complete (hHeader : s.headerDone = true) (hOpen : s.completed = false)
    (hFinished : ∀ i < job.count, (s.task i).finished = true) : HandlerStep job s (s.slmpTh job)

theorem handlerStep_cases {a : HandlerAction} (hStep : handlerStep job s a = some s') : HandlerStep job s s' := by
  cases a with
  | header =>
    obtain ⟨hOpen, hNext⟩ := Option.ite_none_left_eq_some.mp hStep
    obtain rfl := Option.some.inj hNext
    exact .header (eq_false_of_ne_true hOpen)
  | start i =>
    obtain ⟨⟨hHeader, hLt, hPc⟩, hNext⟩ := Option.ite_none_right_eq_some.mp hStep
    obtain rfl := Option.some.inj hNext
    exact .start hHeader hLt hPc
  | store i =>
    simp only [handlerStep] at hStep
    split at hStep
    · rename_i hPc
      obtain rfl := Option.some.inj hStep
      exact .store hPc
    · cases hStep
  | sendPacket i =>
    obtain ⟨hPc, hNext⟩ := Option.ite_none_right_eq_some.mp hStep
    obtain rfl := Option.some.inj hNext
    exact .sendPacket hPc
  | copy i j =>
    obtain ⟨hMem, hNext⟩ := Option.ite_none_right_eq_some.mp hStep
    obtain rfl := Option.some.inj hNext
    exact .copy hMem
  | packetSent i =>
    obtain ⟨hSending, hNext⟩ := Option.ite_none_right_eq_some.mp hStep
    obtain rfl := Option.some.inj hNext
    exact .packetSent hSending
  | complete =>
    obtain ⟨⟨hHeader, hOpen, hAll⟩, hNext⟩ := Option.ite_none_right_eq_some.mp hStep
    obtain rfl := Option.some.inj hNext
    exact .complete hHeader (eq_false_of_ne_true hOpen) fun i hi =>
      List.all_eq_true.mp hAll i (List.mem_range.mpr hi)

/-- What a step of the handlers can do to task i. -/
inductive TaskStep (job : Job) (i : Nat) (task : PayloadTask) : PayloadTask → Prop where
  | other : TaskStep job i task task
  | start (hLt : i < job.count) (hPc : task.pc = .waiting) : TaskStep job i task (slmpPh job.hostAddr task)
  | store {st : Store} {stores : List Store} (hPc : task.pc = .acking (st :: stores)) :
    TaskStep job i task { task with pc := .acking stores, l1 := place task.l1 st.1 st.2 }
  | sendPacket (hPc : task.pc = .acking []) : TaskStep job i task { task with pc := .returned, sending := true }
  | copied (j : Nat) : TaskStep job i task { task with dma := { task.dma with pending := task.dma.pending.erase j } }
  | packetSent : TaskStep job i task { task with sending := false }

theorem taskStep_update {i : Nat} {task : PayloadTask} (h : TaskStep job i (s.task i) task) (i' : Nat) :
    TaskStep job i' (s.task i') (Function.update s.task i task i') := by
  rcases eq_or_ne i' i with rfl | hNe
  · rwa [Function.update_self]
  · rw [Function.update_of_ne hNe]
    exact .other

theorem handlerStep_task {a : HandlerAction} (hStep : handlerStep job s a = some s') (i : Nat) :
    TaskStep job i (s.task i) (s'.task i) := by
  cases handlerStep_cases hStep with
  | header _ => exact .other
  | start _ hLt hPc => exact taskStep_update (.start hLt hPc) i
  | store hPc => exact taskStep_update (.store hPc) i
  | sendPacket hPc => exact taskStep_update (.sendPacket hPc) i
  | copy _ => exact taskStep_update (.copied _) i
  | packetSent _ => exact taskStep_update .packetSent i
  | complete _ _ _ =>
    have hTask : (s.slmpTh job).task = s.task := by
      simp only [HandlerState.slmpTh]
      split <;> rfl
    rw [hTask]
    exact .other

theorem task_invariant (Inv : Nat → PayloadTask → Prop)
    (hStep : ∀ i task task', Inv i task → TaskStep job i task task' → Inv i task') {actions : List HandlerAction}
    (hInit : ∀ i, Inv i (s.task i)) (hRun : Trace.run (handlerStep job) s actions = some s') (i : Nat) :
    Inv i (s'.task i) :=
  Trace.run_invariant (fun s => ∀ i, Inv i (s.task i))
    (fun _ _ _ h hNext i => hStep i _ _ (h i) (handlerStep_task hNext i)) hInit hRun i

end Tasks

end FPsPIN.Slmp
