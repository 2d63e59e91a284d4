import FPsPIN.HostDirect.Transfers
import FPsPIN.HostMem.Strobes
import FPsPIN.HpuDriver.HostWrite

/-!
# An immediate write to the host, end to end

The command of spin_write_to_host goes through host_direct, which sends it as
one address and one beat, and through the write path to the host's memory. The
data is in the low lanes of the beat whatever the address is, and the write
path adds the offset of the first strobe to the address. So the address needs
no alignment. Other masters may have bursts in the same stream.
-/

namespace FPsPIN.HostMem

open Bytes CmdDescr Config Run

variable {p : Params}

def writeWord (host : HostAddr → Byte) (addr : HostAddr) (value : BitVec 64) : HostAddr → Byte := fun x =>
  let k := (x - addr).toNat
  if k < 8 then value.extractLsb' (8 * k) 8 else host x

/-- The burst of one address and one beat of host_direct. -/
def hostBurst (id : AxiId) (addr : HostAddr) (w : HostDirect.WDescr) : Burst where
  aw := ⟨id, addr, 0⟩
  beats := [⟨w.data, w.strb, true⟩]
  length_eq := rfl
  last_iff j h := by
    obtain rfl : j = 0 := Nat.lt_one_iff.mp h
    exact iff_of_true rfl rfl

section Burst

variable {id : AxiId} {addr : HostAddr} {w : HostDirect.WDescr}

theorem hostBurst_runsFrom {n : Nat} (hStrb : ∀ i, w.strb.getLsbD i = decide (i < n)) (hPos : 0 < n) (hn : n ≤ 64) :
    (hostBurst id addr w).RunsFrom 0 (n - 1) := by
  refine ⟨by decide, Nat.le_add_left 64 _, Nat.zero_le _, fun k => ?_⟩
  have hStrobed : (hostBurst id addr w).Strobed k ↔ k < 64 ∧ w.strb.getLsbD (k % 64) = true := by
    rcases Nat.lt_or_ge k 64 with hk | hk
    · have hGet : (hostBurst id addr w).beats[k / 64]? = some ⟨w.data, w.strb, true⟩ := by
        rw [Nat.div_eq_of_lt hk]
        rfl
      simp [Burst.Strobed, hGet, hk]
    · have hGet : (hostBurst id addr w).beats[k / 64]? = none :=
        List.getElem?_eq_none (show 1 ≤ k / 64 by omega)
      simp [Burst.Strobed, hGet, Nat.not_lt.mpr hk]
  rw [hStrobed, hStrb, decide_eq_true_iff]
  omega

theorem one_beat_fits (p : Params) : 64 * (hostBurst id addr w).beats.length ≤ 2 ^ p.ramAddrWidth :=
  Nat.pow_le_pow_right Nat.two_pos p.bus_le

theorem written_hostBurst {n : Nat} (hStrb : ∀ i, w.strb.getLsbD i = decide (i < n)) (hn : n ≤ 64)
    (host : HostAddr → Byte) (x : HostAddr) : (hostBurst id addr w).written host x =
      if (x - addr).toNat < n then w.data.extractLsb' (8 * (x - addr).toNat) 8 else host x := by
  have hAddr : (hostBurst id addr w).aw.addr = addr := rfl
  have hBeats : (hostBurst id addr w).beats = [⟨w.data, w.strb, true⟩] := rfl
  rw [Burst.written, hAddr, hBeats]
  generalize (x - addr).toNat = k
  rcases Nat.lt_or_ge k 64 with hk | hk
  · rw [Nat.div_eq_of_lt hk, Nat.mod_eq_of_lt hk]
    simp [hStrb]
  · have hNone : [(⟨w.data, w.strb, true⟩ : Beat)][k / 64]? = none :=
      List.getElem?_eq_none (show 1 ≤ k / 64 by omega)
    rw [hNone, if_neg (by omega)]

theorem hostAfter_hostBurst {n : Nat} (hStrb : ∀ i, w.strb.getLsbD i = decide (i < n)) (hPos : 0 < n)
    (hn : n ≤ 64) (ram : RamAddr p → Byte) (host : HostAddr → Byte) (x : HostAddr) :
    hostAfter ((hostBurst id addr w).desc p) ((hostBurst id addr w).stored ram 1) host x =
      if (x - addr).toNat < n then w.data.extractLsb' (8 * (x - addr).toNat) 8 else host x := by
  rw [← written_hostBurst hStrb hn host x]
  exact congrFun ((hostBurst_runsFrom hStrb hPos hn).hostAfter_eq (one_beat_fits p) ram host) x

end Burst

/-- The strobe of a command has its low lanes set, and none for a size over 64: the shift distance wraps. -/
theorem getLsbD_wDescrOf (cmd : HostDirectCmd) (i : Nat) : (HostDirect.wDescrOf cmd).strb.getLsbD i =
    decide (cmd.immDataSize.toNat ≤ 64 ∧ i < cmd.immDataSize.toNat) := by
  have hSize := cmd.immDataSize.isLt
  have hShift : (HostDirect.axiStrb - cmd.immDataSize.setWidth 32).toNat =
      (2 ^ 32 - cmd.immDataSize.toNat + 64) % 2 ^ 32 := by
    rw [BitVec.toNat_sub, BitVec.toNat_setWidth,
      Nat.mod_eq_of_lt (show cmd.immDataSize.toNat < 2 ^ 32 by omega)]
    rfl
  rw [HostDirect.wDescrOf, BitVec.getLsbD_ushiftRight, hShift, BitVec.getLsbD_allOnes]
  exact decide_eq_decide.mpr (by omega)

/-- Runs of host_direct and of the write path behind an interconnect that is transparent: the writes of
host_direct are bursts of the stream, in order, and the other bursts are arbitrary. -/
structure Path (numCmds : Nat) (p : Params) where
  hostDirect : HostDirect.Params
  commands : Nat → HostDirect.Input numCmds
  ram : RamAddr p → Byte
  dma : Nat → Input
  bursts : Nat → Burst
  carries : Carries ram dma bursts
  place : Nat → Nat
  place_lt : ∀ n, place n < place (n + 1)
  transparent : ∀ (n t : Nat) (addr : HostAddr) (w : HostDirect.WDescr),
    (HostDirect.sentAw hostDirect commands t)[n]? = some addr →
    (HostDirect.sentW hostDirect commands t)[n]? = some w → ∃ id, bursts (place n) = hostBurst id addr w

namespace Path

variable {numCmds : Nat} (path : Path numCmds p)

def issued (t : Nat) : List (Desc p) := descsOn path.ram path.dma t

def stateAt (t : Nat) : State p := runAt path.ram path.dma t

end Path

/-- What becomes of the command if host_direct accepts it as its write with number n. -/
structure HostWrite {numCmds : Nat} (path : Path numCmds p) (hostAddr userData : BitVec 64) (n : Nat) : Prop where
  /-- It leaves host_direct if the host port takes transfers. -/
  sent : HostDirect.Fair path.commands → ∃ t, n < (HostDirect.sentAw path.hostDirect path.commands t).length ∧
    n < (HostDirect.sentW path.hostDirect path.commands t).length
  /-- Every burst has one descriptor, in order. -/
  one : ∀ t, path.issued t = (List.range (path.issued t).length).map fun k => (path.bursts k).desc p
  /-- Its own descriptor is issued in the end. -/
  descriptor : FairUntil path.ram path.dma (path.place n) →
    ∃ t, (path.stateAt t).stateQ = .waitDmaFin ∧ (path.issued t).length = path.place n + 1
  /-- Whenever the DMA engine copies, from the descriptor to its completion, it writes these eight bytes. -/
  effect : ∀ u, n < (HostDirect.sentAw path.hostDirect path.commands u).length →
    n < (HostDirect.sentW path.hostDirect path.commands u).length →
    ∀ t, (path.stateAt t).stateQ = .waitDmaFin → (path.issued t).length = path.place n + 1 →
      ∀ host, hostAfter (path.stateAt t).desc (path.stateAt t).ram host = writeWord host hostAddr userData

theorem hostWrite_of_descr {numCmds : Nat} (path : Path numCmds p) {cmd : PspinCmd numCmds}
    {hostAddr userData : BitVec 64} {n t : Nat}
    (hAddr : (hostDirectCmd cmd.words).hostAddr = hostAddr) (hSize : (hostDirectCmd cmd.words).immDataSize = 8)
    (hData : (hostDirectCmd cmd.words).immData.extractLsb' 0 64 = userData)
    (hCmd : (HostDirect.acceptedWrites path.hostDirect path.commands t)[n]? = some cmd) :
    HostWrite path hostAddr userData n := by
  have hStrb : ∀ i, (HostDirect.wDescrOf (hostDirectCmd cmd.words)).strb.getLsbD i = decide (i < 8) := by
    intro i
    rw [getLsbD_wDescrOf, hSize]
    exact decide_eq_decide.mpr (and_iff_right (by decide))
  refine ⟨fun hFair => HostDirect.exists_sent _ hFair (List.getElem?_eq_some_iff.mp hCmd).1,
    fun u => (run_stage path.carries u).2, fun hFair => exists_dmaBusy path.carries hFair, ?_⟩
  intro u hAwSent hWSent v hPhase hLength host
  obtain ⟨hAw, hW⟩ := HostDirect.sent_of_accepted path.hostDirect (u := u) hCmd
  obtain ⟨id, hBurst⟩ := path.transparent n u _ _ (hAw hAwSent) (hW hWSent)
  have hBusy := dmaBusy_of_phase path.carries hPhase hLength
  rw [hBurst] at hBusy
  obtain ⟨ram, hRam⟩ := hBusy.ram
  change hostAfter (runAt path.ram path.dma v).desc (runAt path.ram path.dma v).ram host = _
  funext x
  rw [hBusy.desc, hRam, ← hAddr, ← hData]
  refine (hostAfter_hostBurst hStrb (by decide) (by decide) ram host x).trans ?_
  rw [writeWord]
  refine if_ctx_congr Iff.rfl (fun hk => ?_) fun _ => rfl
  apply BitVec.eq_of_getLsbD_eq
  intro j hj
  have hWord : 8 * (x - (hostDirectCmd cmd.words).hostAddr).toNat + j < 64 := by omega
  rw [BitVec.getLsbD_extractLsb', BitVec.getLsbD_extractLsb', BitVec.getLsbD_extractLsb', decide_eq_true hWord,
    Bool.true_and, Nat.zero_add]
  rfl

/-- A call of spin_write_to_host pushes one command, which becomes one descriptor for the eight bytes. -/
theorem spinWriteToHost_endToEnd {q : HpuDriver.Params} {s : Nat → HpuDriver.CmdFrontend.State q}
    {i : Nat → HpuDriver.CmdFrontend.Input q} {hostAddr userData : BitVec 64} {t u : Nat}
    (hRun : HpuDriver.CmdFrontend.CoreRuns s i)
    (hCall : HpuDriver.CmdFrontend.Granted s i (HpuDriver.CmdFrontend.spinWriteToHost hostAddr userData) t u) :
    ∃ cmd, HpuDriver.CmdFrontend.pushed s i t (u + 1) = [cmd] ∧ cmd.intfId = cmdHostdirectId ∧
      (hostDirectCmd cmd.words).nicToHost = true ∧
      ∀ (p : Params) (path : Path q.numCmds p) (n v : Nat),
        (HostDirect.acceptedWrites path.hostDirect path.commands v)[n]? = some cmd →
          HostWrite path hostAddr userData n := by
  obtain ⟨cmd, hPushed, hWrites⟩ := HpuDriver.CmdFrontend.spinWriteToHost_command hRun hCall
  obtain ⟨hAddr, hDir, hSize, hData⟩ := hWrites.descr
  exact ⟨cmd, hPushed, hWrites.intfId, hDir, fun _ path _ _ hCmd =>
    hostWrite_of_descr path hAddr hSize hData hCmd⟩

section Repeated

variable {numCmds : Nat} (p) (cmd : PspinCmd numCmds)

def depths : HostDirect.Params := ⟨16, 16, 16, 32, 32⟩

def offers : HostDirect.Input numCmds := ⟨true, cmd, true, true, true, true, false⟩

def burstOf : Burst :=
  hostBurst 0x11 (hostDirectCmd cmd.words).hostAddr (HostDirect.wDescrOf (hostDirectCmd cmd.words))

def eager : Input := ⟨true, (burstOf cmd).aw, true, (burstOf cmd).first, true, true, true, 0, 0, true, true, true⟩

theorem mem_beatsBefore {b : Burst} {beat : Beat} (hBeats : b.beats = [beat]) (k : Nat) :
    ∀ x ∈ beatsBefore (fun _ => b) k, x = beat := by
  induction k with
  | zero => intro x hx; cases hx
  | succ k ih =>
    intro x hx
    rw [beatsBefore, hBeats] at hx
    exact (List.mem_append.mp hx).elim (ih x) List.mem_singleton.mp

theorem mem_acceptedWrites {t : Nat} {x : PspinCmd numCmds}
    (h : x ∈ HostDirect.acceptedWrites depths (fun _ => offers cmd) t) : x = cmd := by
  obtain ⟨u, _, _, hx⟩ := mem_window.mp h
  rw [HostDirect.acceptsWrite] at hx
  split_ifs at hx
  · exact List.mem_singleton.mp hx
  · cases hx

theorem repeated_carries : Carries (p := p) (fun _ => 0) (fun _ => eager cmd) (fun _ => burstOf cmd) := by
  intro t
  refine ⟨fun _ => rfl, fun _ k hk => ?_⟩
  rw [List.getElem?_eq_getElem hk]
  exact congrArg some (mem_beatsBefore rfl k _ (List.getElem_mem hk))

theorem repeated_transparent (n t : Nat) (addr : HostAddr) (w : HostDirect.WDescr)
    (hAw : (HostDirect.sentAw depths (fun _ => offers cmd) t)[n]? = some addr)
    (hW : (HostDirect.sentW depths (fun _ => offers cmd) t)[n]? = some w) :
    ∃ id, burstOf cmd = hostBurst id addr w := by
  have hAddr : addr ∈ (HostDirect.acceptedWrites depths (fun _ => offers cmd) t).map
      fun x => (hostDirectCmd x.words).hostAddr := by
    rw [← HostDirect.sentAw_append]
    exact List.mem_append_left _ (List.mem_of_getElem? hAw)
  have hBeat : w ∈ (HostDirect.acceptedWrites depths (fun _ => offers cmd) t).map
      fun x => HostDirect.wDescrOf (hostDirectCmd x.words) := by
    rw [← HostDirect.sentW_append]
    exact List.mem_append_left _ (List.mem_of_getElem? hW)
  obtain ⟨x, hx, rfl⟩ := List.mem_map.mp hAddr
  obtain ⟨y, hy, rfl⟩ := List.mem_map.mp hBeat
  rw [mem_acceptedWrites cmd hx, mem_acceptedWrites cmd hy]
  exact ⟨0x11, rfl⟩

def repeated : Path numCmds p where
  hostDirect := depths
  commands _ := offers cmd
  ram _ := 0
  dma _ := eager cmd
  bursts _ := burstOf cmd
  carries := repeated_carries p cmd
  place n := n
  place_lt := Nat.lt_succ_self
  transparent := repeated_transparent cmd

theorem repeated_accepts (hDir : (hostDirectCmd cmd.words).nicToHost = true) :
    (HostDirect.acceptedWrites depths (fun _ => offers cmd) 1)[0]? = some cmd := by
  have hPush : HostDirect.writePush depths (HostDirect.init numCmds) (offers cmd) = true := by
    rw [HostDirect.writePush, HostDirect.cmdReqReady]
    change (true && (_ || _) && (hostDirectCmd cmd.words).nicToHost) = true
    have hDescr : (HostDirect.descr (offers cmd)).nicToHost = true := hDir
    rw [hDescr, hDir]
    rfl
  change (if HostDirect.writePush depths (HostDirect.init numCmds) (offers cmd) then [cmd] else [])[0]? = some cmd
  rw [hPush]
  rfl

theorem repeated_fair : HostDirect.Fair (repeated p cmd).commands ∧
    ∀ m, FairUntil (repeated p cmd).ram (repeated p cmd).dma m := by
  refine ⟨⟨fun t => ⟨t, Nat.le_refl t, rfl⟩, fun t => ⟨t, Nat.le_refl t, rfl⟩⟩,
    fun m w t _ => ⟨t, Nat.le_refl t, ?_⟩⟩
  cases w <;> rfl

end Repeated

/-- One call on an idle HPU, in consecutive cycles. -/
def callOnce (hostAddr userData : BitVec 64) (t : Nat) :
    HpuDriver.CmdFrontend.Input HpuDriver.CmdFrontend.twoIds :=
  match (HpuDriver.CmdFrontend.spinWriteToHost hostAddr userData)[t]? with
  | some (.store add wdata) => ⟨true, add, false, wdata, false, HpuDriver.CmdFrontend.zeroId _, false, false⟩
  | some (.load add) => ⟨true, add, true, 0, false, HpuDriver.CmdFrontend.zeroId _, false, false⟩
  | none => ⟨false, 0, true, 0, false, HpuDriver.CmdFrontend.zeroId _, false, false⟩

def callRun (hostAddr userData : BitVec 64) (t : Nat) :
    HpuDriver.CmdFrontend.State HpuDriver.CmdFrontend.twoIds :=
  Run.stateAt HpuDriver.CmdFrontend.step (HpuDriver.CmdFrontend.init _) (callOnce hostAddr userData) t

theorem callOnce_runs : HpuDriver.CmdFrontend.CoreRuns (callRun 0x1003 0x1122334455667788)
    (callOnce 0x1003 0x1122334455667788) where
  start := rfl
  next _ := rfl
  held t hReq hGnt := by
    have hGranted : ∀ u < 7, HpuDriver.CmdFrontend.gnt (callRun 0x1003 0x1122334455667788 u)
        (callOnce 0x1003 0x1122334455667788 u) = true := by decide +kernel
    rcases Nat.lt_or_ge t 7 with ht | ht
    · rw [hGranted t ht] at hGnt
      cases hGnt
    · have hNone : (HpuDriver.CmdFrontend.spinWriteToHost 0x1003 0x1122334455667788)[t]? = none :=
        List.getElem?_eq_none ht
      rw [callOnce, hNone] at hReq
      cases hReq

theorem callOnce_accesses : HpuDriver.CmdFrontend.Granted (callRun 0x1003 0x1122334455667788)
    (callOnce 0x1003 0x1122334455667788) (HpuDriver.CmdFrontend.spinWriteToHost 0x1003 0x1122334455667788) 0 6 where
  le := Nat.zero_le 6
  accesses := by decide +kernel
  returns := by decide +kernel

/-- A word at an address that is not even, on a path where the descriptor is issued. -/
theorem spinWriteToHost_endToEnd_unaligned :
    ∃ cmd : PspinCmd 2, HostWrite (repeated ramOf64K cmd) 0x1003 0x1122334455667788 0 ∧
      HostDirect.Fair (repeated ramOf64K cmd).commands ∧
      FairUntil (repeated ramOf64K cmd).ram (repeated ramOf64K cmd).dma ((repeated ramOf64K cmd).place 0) := by
  obtain ⟨cmd, _, _, hDir, hWrite⟩ := spinWriteToHost_endToEnd callOnce_runs callOnce_accesses
  have hFair := repeated_fair ramOf64K cmd
  exact ⟨cmd, hWrite ramOf64K (repeated ramOf64K cmd) 0 1 (repeated_accepts cmd hDir), hFair.1, hFair.2 _⟩

end FPsPIN.HostMem
