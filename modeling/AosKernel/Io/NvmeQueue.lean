import Mathlib.Data.Nat.Bitwise
import AosKernel.Lib.Ring

namespace AosKernel.Io

open Verif

structure NvmeCommand where
  cdw0 : Nat
  nsid : Nat
  rsvd2 : Nat
  rsvd3 : Nat
  mptr : Nat
  prp1 : Nat
  prp2 : Nat
  cdw10 : Nat
  cdw11 : Nat
  cdw12 : Nat
  cdw13 : Nat
  cdw14 : Nat
  cdw15 : Nat
  deriving DecidableEq

structure NvmeCompletion where
  dw0 : Nat
  dw1 : Nat
  sqHead : Nat
  sqId : Nat
  cid : Nat
  status : Nat
  deriving DecidableEq

def NVME_ADMIN_QUEUE_SIZE : Nat := 64
def NVME_IO_QUEUE_SIZE : Nat := 64

def NVME_CQE_PHASE (status : Nat) : Nat := status &&& 1

namespace NvmeCommand

-- The command identifier is the upper half of the first word.
def cid (cmd : NvmeCommand) : Nat := cmd.cdw0 >>> 16

def withCid (cmd : NvmeCommand) (cid : Nat) : NvmeCommand :=
  { cmd with cdw0 := cmd.cdw0 &&& 0x0000FFFF ||| cid <<< 16 }

@[simp] theorem withCid_cid (cmd : NvmeCommand) (cid : Nat) : (cmd.withCid cid).cid = cid := by
  have hlow : cmd.cdw0 &&& 0x0000FFFF = cmd.cdw0 % 2 ^ 16 :=
    Nat.and_two_pow_sub_one_eq_mod cmd.cdw0 16
  have hlt : cmd.cdw0 % 2 ^ 16 < 2 ^ 16 := Nat.mod_lt _ (Nat.two_pow_pos 16)
  change (cmd.cdw0 &&& 0x0000FFFF ||| cid <<< 16) >>> 16 = cid
  rw [hlow, Nat.or_comm, ← Nat.shiftLeft_add_eq_or_of_lt hlt, Nat.shiftRight_eq_div_pow,
    Nat.shiftLeft_eq]
  omega

end NvmeCommand

-- A struct nvme_admin_queue or nvme_io_queue with its two rings. `sqDb` and
-- `cqDb` are the doorbells, as last written.
structure NvmeQueue where
  sq : Nat → NvmeCommand
  sqTail : Nat
  sqCount : Nat
  cq : Nat → NvmeCompletion
  cqHead : Nat
  cqPhase : Nat
  sqDb : Nat
  cqDb : Nat
  nextCid : Nat
  cidBitmap : BitVec 64

namespace NvmeQueue

-- As nvme_setup_admin_queue and nvme_setup_io_queue leave it: the rings are
-- zeroed.
def setup : NvmeQueue where
  sq _ := ⟨0, 0, 0, 0, 0, 0, 0, 0, 0, 0, 0, 0, 0⟩
  sqTail := 0
  sqCount := 0
  cq _ := ⟨0, 0, 0, 0, 0, 0⟩
  cqHead := 0
  cqPhase := 1
  sqDb := 0
  cqDb := 0
  nextCid := 0
  cidBitmap := 0

-- The first identifier from `next_cid` on that is not in use.
def freeCid (q : NvmeQueue) (size : Nat) : Option Nat :=
  ((List.range size).map fun i => (q.nextCid + i) % size).find? fun candidate =>
    q.cidBitmap &&& 1#64 <<< candidate == 0

def accept (size : Nat) (q : NvmeQueue) (cmd : NvmeCommand) (cid : Nat) : NvmeQueue :=
  { q with
    cidBitmap := q.cidBitmap ||| 1#64 <<< cid
    nextCid := (cid + 1) % size
    sq := Function.update q.sq q.sqTail (cmd.withCid cid)
    sqTail := Ring.next size q.sqTail
    sqCount := q.sqCount + 1 }

-- Sending a command on a queue of `size` entries, and its identifier if it is
-- accepted.
def sendCmd (size : Nat) (q : NvmeQueue) (cmd : NvmeCommand) : NvmeQueue × Option Nat :=
  if q.sqCount ≥ size then (q, none)
  else
    match q.freeCid size with
    | none => (q, none)
    | some cid => (q.accept size cmd cid, some cid)

def notifyDevice (q : NvmeQueue) : NvmeQueue := { q with sqDb := q.sqTail }

-- The completion that is seen at the head of the ring.
def nextCompletion (q : NvmeQueue) : Option NvmeCompletion :=
  if NVME_CQE_PHASE (q.cq q.cqHead).status = q.cqPhase then some (q.cq q.cqHead) else none

def consume (size : Nat) (q : NvmeQueue) (completedCid : Nat) : NvmeQueue :=
  { q with
    cqHead := Ring.next size q.cqHead
    cqPhase := if q.cqHead + 1 ≥ size then q.cqPhase ^^^ 1 else q.cqPhase
    sqCount := if q.sqCount > 0 then q.sqCount - 1 else q.sqCount
    cidBitmap := q.cidBitmap &&& ~~~(1#64 <<< completedCid)
    cqDb := Ring.next size q.cqHead }

-- A turn of the loop that polls for the completion of command `cid`. The call
-- returns TRUE with the second part, if there is one; between two turns it can
-- time out.
def pollTurn (size : Nat) (q : NvmeQueue) (cid : Nat) : NvmeQueue × Option NvmeCompletion :=
  match q.nextCompletion with
  | none => (q, none)
  | some cqe => (q.consume size cqe.cid, if cqe.cid = cid then some cqe else none)

end NvmeQueue

-- The functions of the two queues.
def nvmeSendAdminCmd := NvmeQueue.sendCmd NVME_ADMIN_QUEUE_SIZE
def nvmeAdminNotifyDevice := NvmeQueue.notifyDevice
def nvmeAdminPollTurn := NvmeQueue.pollTurn NVME_ADMIN_QUEUE_SIZE
def nvmeSendIoCmd := NvmeQueue.sendCmd NVME_IO_QUEUE_SIZE
def nvmeIoNotifyDevice := NvmeQueue.notifyDevice
def nvmeIoPollTurn := NvmeQueue.pollTurn NVME_IO_QUEUE_SIZE

inductive QueueKind
  | admin
  | io
  deriving DecidableEq

namespace QueueKind

def size : QueueKind → Nat
  | admin => NVME_ADMIN_QUEUE_SIZE
  | io => NVME_IO_QUEUE_SIZE

def sendCmd : QueueKind → NvmeQueue → NvmeCommand → NvmeQueue × Option Nat
  | admin => nvmeSendAdminCmd
  | io => nvmeSendIoCmd

def notifyDevice : QueueKind → NvmeQueue → NvmeQueue
  | admin => nvmeAdminNotifyDevice
  | io => nvmeIoNotifyDevice

def pollTurn : QueueKind → NvmeQueue → Nat → NvmeQueue × Option NvmeCompletion
  | admin => nvmeAdminPollTurn
  | io => nvmeIoPollTurn

theorem size_bounds (kind : QueueKind) : 0 < kind.size ∧ kind.size ≤ 64 := by
  cases kind <;> decide

theorem sendCmd_eq (kind : QueueKind) : kind.sendCmd = NvmeQueue.sendCmd kind.size := by
  cases kind <;> rfl

theorem notifyDevice_eq (kind : QueueKind) : kind.notifyDevice = NvmeQueue.notifyDevice := by
  cases kind <;> rfl

theorem pollTurn_eq (kind : QueueKind) : kind.pollTurn = NvmeQueue.pollTurn kind.size := by
  cases kind <;> rfl

end QueueKind

namespace NvmeQueue

variable {q : NvmeQueue} {size cid : Nat} {cmd : NvmeCommand}

theorem sendCmd_none (h : (q.sendCmd size cmd).2 = none) : (q.sendCmd size cmd).1 = q := by
  revert h
  unfold sendCmd
  split
  · exact fun _ => rfl
  · split
    · exact fun _ => rfl
    · exact fun h => nomatch h

theorem sendCmd_some (h : (q.sendCmd size cmd).2 = some cid) :
    q.sqCount < size ∧ q.freeCid size = some cid ∧
      (q.sendCmd size cmd).1 = q.accept size cmd cid := by
  unfold sendCmd at h ⊢
  by_cases hfull : q.sqCount ≥ size
  · rw [if_pos hfull] at h
    cases h
  · rw [if_neg hfull] at h ⊢
    cases hfree : q.freeCid size with
    | none =>
        rw [hfree] at h
        cases h
    | some cid' =>
        rw [hfree] at h
        cases h
        exact ⟨Nat.lt_of_not_le hfull, rfl, rfl⟩

theorem getLsbD_cidBit (cid c : Nat) (hcid : cid < 64) :
    (1#64 <<< cid).getLsbD c = decide (c = cid) := by
  rw [BitVec.getLsbD_shiftLeft, BitVec.getLsbD_one]
  by_cases hc : c = cid
  · simp [hc, hcid]
  · by_cases hlt : c < 64
    · simp [hc]
      omega
    · simp [hlt, hc]

-- The identifier is free exactly if its bit is clear.
theorem bit_clear_iff (bitmap : BitVec 64) (hcid : cid < 64) :
    (bitmap &&& 1#64 <<< cid == 0) = true ↔ bitmap.getLsbD cid = false := by
  rw [beq_iff_eq]
  constructor
  · intro h
    have hbit := congrArg (BitVec.getLsbD · cid) h
    simpa [getLsbD_cidBit cid cid hcid] using hbit
  · intro h
    refine BitVec.eq_of_getLsbD_eq fun i hi => ?_
    rw [BitVec.getLsbD_and, getLsbD_cidBit cid i hcid]
    by_cases hic : i = cid
    · simp [hic, h]
    · simp [hic]

theorem getLsbD_setCid (bitmap : BitVec 64) (hcid : cid < 64) (c : Nat) :
    (bitmap ||| 1#64 <<< cid).getLsbD c = (bitmap.getLsbD c || decide (c = cid)) := by
  rw [BitVec.getLsbD_or, getLsbD_cidBit cid c hcid]

theorem getLsbD_clearCid (bitmap : BitVec 64) (hcid : cid < 64) {c : Nat} (hc : c < 64) :
    (bitmap &&& ~~~(1#64 <<< cid)).getLsbD c = (bitmap.getLsbD c && !decide (c = cid)) := by
  rw [BitVec.getLsbD_and, BitVec.getLsbD_not, getLsbD_cidBit cid c hcid]
  simp [hc]

theorem freeCid_spec (hsize : size ≤ 64) (h : q.freeCid size = some cid) :
    cid < size ∧ q.cidBitmap.getLsbD cid = false := by
  have hmem := List.mem_of_find?_eq_some h
  have hfree := List.find?_some h
  obtain ⟨i, hi, rfl⟩ := List.mem_map.mp hmem
  have hlt : (q.nextCid + i) % size < size :=
    Nat.mod_lt _ (Nat.lt_of_le_of_lt (Nat.zero_le i) (List.mem_range.mp hi))
  exact ⟨hlt, (bit_clear_iff _ (Nat.lt_of_lt_of_le hlt hsize)).mp hfree⟩

end NvmeQueue

end AosKernel.Io
