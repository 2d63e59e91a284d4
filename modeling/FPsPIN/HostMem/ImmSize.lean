import FPsPIN.HostMem.HostWrite

/-!
# The size of an immediate write

The strobe of a command is a word of ones shifted right by 64 minus the size.
At size 0 nothing of it is left, and over 64 the difference wraps and the shift
leaves nothing either. The write path cannot tell a beat without strobes from a
full one, so both make the DMA engine copy 64 bytes that the client never
stored.
-/

namespace FPsPIN.HostMem

open Bytes CmdDescr Config Run

variable {p : Params} {numCmds : Nat}

def immWritten (cmd : HostDirectCmd) (host : HostAddr → Byte) : HostAddr → Byte := fun x =>
  let k := (x - cmd.hostAddr).toNat
  if cmd.immDataSize.toNat ≤ 64 ∧ k < cmd.immDataSize.toNat then cmd.immData.extractLsb' (8 * k) 8 else host x

def Path.Executes (path : Path numCmds p) (n t : Nat) : Prop :=
  (path.stateAt t).stateQ = .waitDmaFin ∧ (path.issued t).length = path.place n + 1

/-- The command is executed, and then it writes as many bytes as its size says. -/
structure ImmWrite (path : Path numCmds p) (cmd : HostDirectCmd) (n : Nat) : Prop where
  executed : ∃ t, path.Executes n t
  effect : ∀ t, path.Executes n t →
    ∀ host, hostAfter (path.stateAt t).desc (path.stateAt t).ram host = immWritten cmd host

theorem desc_hostBurst_of_zero {id : AxiId} {addr : HostAddr} {w : HostDirect.WDescr} (hStrb : w.strb = 0) :
    (hostBurst id addr w).desc p = ⟨addr, 0, 64, id.setWidth 16⟩ := by
  have hFront : (hostBurst id addr w).front = 0 := by
    change (lzFront w.strb).setWidth 64 = 0
    rw [hStrb, lz_zero.1]
    rfl
  have hBack : (hostBurst id addr w).back = 0 := by
    change (lzBack w.strb).setWidth 64 = 0
    rw [hStrb, lz_zero.2]
    rfl
  have hSize : (hostBurst id addr w).size = 64 := rfl
  rw [Burst.desc, hFront, hBack, hSize]
  congr 1
  · exact BitVec.add_zero addr
  · exact BitVec.setWidth_zero _ _

theorem exists_hostAfter_ne (addr : HostAddr) (tag : BitVec 16) (ram : RamAddr p → Byte) :
    ∃ host : HostAddr → Byte, hostAfter ⟨addr, 0, 64, tag⟩ ram host addr ≠ host addr := by
  refine ⟨fun _ => ram 0 + 1, ?_⟩
  have hOff : (addr - addr).toNat = 0 := by rw [BitVec.sub_self, BitVec.toNat_zero]
  have hCopied : hostAfter ⟨addr, 0, 64, tag⟩ ram (fun _ => ram 0 + 1) addr = ram 0 := by
    rw [hostAfter, hOff]
    exact congrArg ram (BitVec.add_zero 0)
  have hNext : ∀ b : Byte, b ≠ b + 1 := by decide
  rw [hCopied]
  exact hNext (ram 0)

variable {path : Path numCmds p} {cmd : PspinCmd numCmds} {n t : Nat}

theorem burst_of_executes (hCmd : (HostDirect.acceptedWrites path.hostDirect path.commands t)[n]? = some cmd)
    (hSent : HostDirect.Fair path.commands) {u : Nat} (hExec : path.Executes n u) :
    ∃ id ram, (path.stateAt u).desc = (hostBurst id (hostDirectCmd cmd.words).hostAddr
        (HostDirect.wDescrOf (hostDirectCmd cmd.words))).desc p ∧
      (path.stateAt u).ram = (hostBurst id (hostDirectCmd cmd.words).hostAddr
        (HostDirect.wDescrOf (hostDirectCmd cmd.words))).stored ram 1 := by
  obtain ⟨v, hAwSent, hWSent⟩ := HostDirect.exists_sent _ hSent (List.getElem?_eq_some_iff.mp hCmd).1
  obtain ⟨hAw, hW⟩ := HostDirect.sent_of_accepted path.hostDirect (u := v) hCmd
  obtain ⟨id, hBurst⟩ := path.transparent n v _ _ (hAw hAwSent) (hW hWSent)
  have hBusy := dmaBusy_of_phase path.carries hExec.1 hExec.2
  rw [hBurst] at hBusy
  obtain ⟨ram, hRam⟩ := hBusy.ram
  exact ⟨id, ram, hBusy.desc, hRam⟩

theorem exists_not_immWritten
    (hCmd : (HostDirect.acceptedWrites path.hostDirect path.commands t)[n]? = some cmd)
    (hSent : HostDirect.Fair path.commands) {u : Nat} (hExec : path.Executes n u)
    (hSize : ¬ (0 < (hostDirectCmd cmd.words).immDataSize.toNat ∧
      (hostDirectCmd cmd.words).immDataSize.toNat ≤ 64)) :
    ∃ host, hostAfter (path.stateAt u).desc (path.stateAt u).ram host ≠
      immWritten (hostDirectCmd cmd.words) host := by
  obtain ⟨id, ram, hDesc, hRam⟩ := burst_of_executes hCmd hSent hExec
  have hStrb : (HostDirect.wDescrOf (hostDirectCmd cmd.words)).strb = 0 := by
    apply BitVec.eq_of_getLsbD_eq
    intro i hi
    rw [getLsbD_wDescrOf, decide_eq_false (by omega)]
    exact BitVec.getLsbD_zero.symm
  rw [desc_hostBurst_of_zero hStrb] at hDesc
  obtain ⟨host, hChanged⟩ := exists_hostAfter_ne (hostDirectCmd cmd.words).hostAddr (id.setWidth 16)
    (path.stateAt u).ram
  refine ⟨host, fun hEq => hChanged ?_⟩
  rw [← hDesc, hEq, immWritten, if_neg (by omega)]

theorem immWrite_iff (hCmd : (HostDirect.acceptedWrites path.hostDirect path.commands t)[n]? = some cmd)
    (hSent : HostDirect.Fair path.commands) (hFair : FairUntil path.ram path.dma (path.place n)) :
    ImmWrite path (hostDirectCmd cmd.words) n ↔
      0 < (hostDirectCmd cmd.words).immDataSize.toNat ∧ (hostDirectCmd cmd.words).immDataSize.toNat ≤ 64 := by
  constructor
  · rintro ⟨⟨u, hExec⟩, hEffect⟩
    by_contra hSize
    obtain ⟨host, hNe⟩ := exists_not_immWritten hCmd hSent hExec hSize
    exact hNe (hEffect u hExec host)
  · rintro ⟨hPos, hLe⟩
    have hStrb : ∀ i, (HostDirect.wDescrOf (hostDirectCmd cmd.words)).strb.getLsbD i =
        decide (i < (hostDirectCmd cmd.words).immDataSize.toNat) := by
      intro i
      rw [getLsbD_wDescrOf]
      exact decide_eq_decide.mpr (and_iff_right hLe)
    refine ⟨exists_dmaBusy path.carries hFair, fun u hExec host => ?_⟩
    obtain ⟨id, ram, hDesc, hRam⟩ := burst_of_executes hCmd hSent hExec
    funext x
    rw [hDesc, hRam, hostAfter_hostBurst hStrb hPos hLe, immWritten]
    exact if_congr (and_iff_right hLe).symm rfl rfl

/-- A write to address 0, with its direction and size in the third word. -/
def immCommand (third : BitVec 32) : PspinCmd 2 :=
  ⟨cmdHostdirectId, ⟨0, 0, HpuDriver.CmdFrontend.zeroId HpuDriver.CmdFrontend.twoIds⟩, .hostDirect,
    fun w => if w.val = 2 then third else 0, false⟩

/-- Five bytes. -/
theorem immWrite_iff_five :
    ImmWrite (repeated ramOf64K (immCommand 0b1011)) (hostDirectCmd (immCommand 0b1011).words) 0 ↔
      0 < (hostDirectCmd (immCommand 0b1011).words).immDataSize.toNat ∧
        (hostDirectCmd (immCommand 0b1011).words).immDataSize.toNat ≤ 64 :=
  immWrite_iff (repeated_accepts (immCommand 0b1011) (by decide +kernel))
    (repeated_fair ramOf64K (immCommand 0b1011)).1 ((repeated_fair ramOf64K (immCommand 0b1011)).2 _)

/-- A command with size 0 on a path where everybody acts. -/
theorem immWrite_fails :
    ¬ ∀ (numCmds : Nat) (p : Params) (path : Path numCmds p) (cmd : PspinCmd numCmds) (n t : Nat),
    (HostDirect.acceptedWrites path.hostDirect path.commands t)[n]? = some cmd →
      HostDirect.Fair path.commands → FairUntil path.ram path.dma (path.place n) →
        ImmWrite path (hostDirectCmd cmd.words) n := by
  intro hAll
  have hFair := repeated_fair ramOf64K (immCommand 1)
  have hCmd := repeated_accepts (immCommand 1) (by decide +kernel)
  obtain ⟨⟨u, hExec⟩, hEffect⟩ := hAll 2 ramOf64K (repeated ramOf64K (immCommand 1)) (immCommand 1) 0 1 hCmd
    hFair.1 (hFair.2 _)
  obtain ⟨host, hNe⟩ := exists_not_immWritten hCmd hFair.1 hExec (by decide +kernel)
  exact hNe (hEffect u hExec host)

end FPsPIN.HostMem
