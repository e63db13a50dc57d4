import Mathlib.Algebra.Group.Nat.Defs
import Mathlib.Logic.Function.Basic
import Mathlib.Data.Nat.Basic

namespace AosKernel.Gpu

def VIRTQ_DESC_F_NEXT : Nat := 1
def VIRTQ_DESC_F_WRITE : Nat := 2

structure VirtqDesc where
  addr : Nat
  len : Nat
  flags : Nat
  next : Nat
  deriving DecidableEq

-- A virtqueue and its three areas. `availRing` and `usedRing` are the rings of
-- `avail` and `used`, the second by the ids of its elements; indices are
-- 16-bit numbers. No descriptor has the number 0xFFFF.
structure Virtqueue where
  desc : Nat → VirtqDesc
  availRing : Nat → Nat
  availIdx : Nat
  usedRing : Nat → Nat
  usedIdx : Nat
  queueSize : Nat
  freeHead : Nat
  lastUsedIdx : Nat

def noDesc : Nat := 0xFFFF

def nextIdx (idx : Nat) : Nat := (idx + 1) % 2 ^ 16

namespace Virtqueue

def setDesc (vq : Virtqueue) (i : Nat) (d : VirtqDesc) : Virtqueue :=
  { vq with desc := Function.update vq.desc i d }

-- The loop of virtio_send_ex, which stands at descriptor `c`.
def fillChain (vq : Virtqueue) (c : Nat) : List VirtqDesc → Virtqueue × Bool
  | [] => (vq, true)
  | [d] =>
      let flags := if d.flags &&& VIRTQ_DESC_F_NEXT ≠ 0 then d.flags ^^^ VIRTQ_DESC_F_NEXT else d.flags
      (vq.setDesc c { d with flags, next := noDesc }, true)
  | d :: rest =>
      let vq := vq.setDesc c d
      if vq.freeHead = noDesc then (vq, false)
      else
        let next := vq.freeHead
        let vq := { vq with freeHead := (vq.desc next).next }
        fillChain (vq.setDesc c { d with flags := d.flags ||| VIRTQ_DESC_F_NEXT, next }) next rest

-- virtio_send_ex. The second part is the head of the chain, if it was sent.
def sendEx (vq : Virtqueue) (descs : List VirtqDesc) : Virtqueue × Option Nat :=
  if vq.freeHead = noDesc then (vq, none)
  else
    let head := vq.freeHead
    let (vq', sent) := { vq with freeHead := (vq.desc head).next }.fillChain head descs
    if sent then
      ({ vq' with
          availRing := Function.update vq'.availRing (vq.availIdx % vq.queueSize) head
          availIdx := nextIdx vq.availIdx }, some head)
    else (vq', none)

-- `avail->ring[(avail->idx - 1) % queue_size]`. The difference is an int, so
-- after the index has wrapped to 0 the field before the ring is read, which is
-- the index itself, unless the queue has size 1.
def lastHead (vq : Virtqueue) : Nat :=
  if vq.availIdx = 0 then (if vq.queueSize = 1 then vq.availRing 0 else vq.availIdx)
  else vq.availRing ((vq.availIdx - 1) % vq.queueSize)

-- The last descriptor of a chain, at most `turns` links away.
def chainTail (vq : Virtqueue) : Nat → Nat → Nat
  | 0, tail => tail
  | turns + 1, tail =>
      if (vq.desc tail).flags &&& VIRTQ_DESC_F_NEXT ≠ 0 then vq.chainTail turns (vq.desc tail).next
      else tail

-- A turn of the loop that takes completed chains out of the used ring. A chain
-- is no longer than the queue.
def retireOne (vq : Virtqueue) : Virtqueue :=
  let head := vq.usedRing (vq.lastUsedIdx % vq.queueSize)
  let tail := vq.chainTail vq.queueSize head
  let vq := vq.setDesc tail { vq.desc tail with next := vq.freeHead }
  { vq with freeHead := head, lastUsedIdx := nextIdx vq.lastUsedIdx }

def retireFrom (vq : Virtqueue) : Nat → Virtqueue
  | 0 => vq
  | turns + 1 => vq.retireOne.retireFrom turns

-- The loop ends when `last_used_idx` has come round to `used->idx`.
def retire (vq : Virtqueue) : Virtqueue :=
  vq.retireFrom ((vq.usedIdx + 2 ^ 16 - vq.lastUsedIdx) % 2 ^ 16)

-- The device puts a chain in the used ring.
def complete (vq : Virtqueue) (head : Nat) : Virtqueue :=
  { vq with
    usedRing := Function.update vq.usedRing (vq.usedIdx % vq.queueSize) head
    usedIdx := nextIdx vq.usedIdx }

section Frames

variable {vq vq' : Virtqueue} {descs : List VirtqDesc} {c head : Nat}

theorem fillChain_frame (vq : Virtqueue) (c : Nat) (descs : List VirtqDesc) :
    (vq.fillChain c descs).1.availRing = vq.availRing ∧
      (vq.fillChain c descs).1.availIdx = vq.availIdx ∧
      (vq.fillChain c descs).1.usedIdx = vq.usedIdx ∧
      (vq.fillChain c descs).1.lastUsedIdx = vq.lastUsedIdx ∧
      (vq.fillChain c descs).1.queueSize = vq.queueSize := by
  induction descs generalizing vq c with
  | nil => exact ⟨rfl, rfl, rfl, rfl, rfl⟩
  | cons d rest ih =>
      cases rest with
      | nil => exact ⟨rfl, rfl, rfl, rfl, rfl⟩
      | cons d' rest =>
          simp only [fillChain]
          split
          · exact ⟨rfl, rfl, rfl, rfl, rfl⟩
          · exact ih _ _

theorem sendEx_used (vq : Virtqueue) (descs : List VirtqDesc) :
    (vq.sendEx descs).1.usedIdx = vq.usedIdx ∧
      (vq.sendEx descs).1.lastUsedIdx = vq.lastUsedIdx := by
  have hframe := fillChain_frame { vq with freeHead := (vq.desc vq.freeHead).next } vq.freeHead descs
  simp only [sendEx]
  split
  · exact ⟨rfl, rfl⟩
  · split
    · exact ⟨hframe.2.2.1, hframe.2.2.2.1⟩
    · exact ⟨hframe.2.2.1, hframe.2.2.2.1⟩

theorem sendEx_sent (h : (vq.sendEx descs).2 = some head) :
    head = vq.freeHead ∧ (vq.sendEx descs).1.availIdx = nextIdx vq.availIdx ∧
      (vq.sendEx descs).1.queueSize = vq.queueSize ∧
      (vq.sendEx descs).1.availRing (vq.availIdx % vq.queueSize) = head := by
  have hframe := fillChain_frame { vq with freeHead := (vq.desc vq.freeHead).next } vq.freeHead descs
  by_cases hfree : vq.freeHead = noDesc
  · simp [sendEx, hfree] at h
  · by_cases hsent : ({ vq with freeHead := (vq.desc vq.freeHead).next }.fillChain
        vq.freeHead descs).2 = true
    · simp only [sendEx, hfree, hsent, if_true, if_false, Option.some_inj] at h ⊢
      subst h
      exact ⟨rfl, trivial, hframe.2.2.2.2, Function.update_self ..⟩
    · simp [sendEx, hfree, hsent] at h

-- Unless the index wraps, the chain sent last is the one found again.
theorem lastHead_sendEx (h : (vq.sendEx descs).2 = some head) (hidx : vq.availIdx < 2 ^ 16) :
    (vq.sendEx descs).1.lastHead = head ∨
      vq.availIdx = 2 ^ 16 - 1 ∧ (vq.sendEx descs).1.lastHead = 0 := by
  obtain ⟨-, hnext, hsize, hring⟩ := sendEx_sent h
  unfold lastHead
  rw [hnext, hsize]
  by_cases hwrap : vq.availIdx = 2 ^ 16 - 1
  · have hzero : nextIdx vq.availIdx = 0 := by simp [nextIdx, hwrap]
    rw [if_pos hzero, hzero]
    split
    · rename_i hone
      rw [hone, Nat.mod_one] at hring
      exact .inl hring
    · exact .inr ⟨hwrap, rfl⟩
  · have hsucc : nextIdx vq.availIdx = vq.availIdx + 1 := Nat.mod_eq_of_lt (by omega)
    rw [hsucc, if_neg (Nat.succ_ne_zero _), Nat.add_sub_cancel]
    exact .inl hring

theorem nextIdx_lt (idx : Nat) : nextIdx idx < 2 ^ 16 := Nat.mod_lt _ (by decide)

theorem nextIdx_ne (idx : Nat) : nextIdx idx ≠ idx := by
  unfold nextIdx
  omega

theorem sendEx_availIdx (descs : List VirtqDesc) (h : vq.availIdx < 2 ^ 16) :
    (vq.sendEx descs).1.availIdx < 2 ^ 16 := by
  have hframe := fillChain_frame { vq with freeHead := (vq.desc vq.freeHead).next } vq.freeHead descs
  simp only [sendEx]
  split
  · exact h
  · split
    · exact nextIdx_lt _
    · exact Nat.lt_of_le_of_lt (Nat.le_of_eq hframe.2.1) h

theorem retireFrom_used (vq : Virtqueue) (turns : Nat) :
    ((vq.retireFrom turns).usedIdx = vq.usedIdx ∧
      (vq.retireFrom turns).availIdx = vq.availIdx) ∧
      (vq.lastUsedIdx < 2 ^ 16 →
        (vq.retireFrom turns).lastUsedIdx = (vq.lastUsedIdx + turns) % 2 ^ 16) := by
  induction turns generalizing vq with
  | zero => exact ⟨⟨rfl, rfl⟩, fun h => (Nat.mod_eq_of_lt h).symm⟩
  | succ turns ih =>
      obtain ⟨hused, hlast⟩ := ih vq.retireOne
      refine ⟨hused, fun _ => ?_⟩
      rw [retireFrom, hlast (nextIdx_lt _)]
      change (nextIdx vq.lastUsedIdx + turns) % 2 ^ 16 = _
      unfold nextIdx
      omega

theorem retire_used (hused : vq.usedIdx < 2 ^ 16) (hlast : vq.lastUsedIdx < 2 ^ 16) :
    vq.retire.usedIdx = vq.usedIdx ∧ vq.retire.availIdx = vq.availIdx ∧
      vq.retire.lastUsedIdx = vq.usedIdx := by
  obtain ⟨hsame, hturns⟩ :=
    retireFrom_used vq ((vq.usedIdx + 2 ^ 16 - vq.lastUsedIdx) % 2 ^ 16)
  refine ⟨hsame.1, hsame.2, ?_⟩
  rw [retire, hturns hlast]
  omega

@[simp] theorem complete_usedIdx : (vq.complete head).usedIdx = nextIdx vq.usedIdx := rfl

@[simp] theorem complete_lastUsedIdx : (vq.complete head).lastUsedIdx = vq.lastUsedIdx := rfl

@[simp] theorem complete_lastHead : (vq.complete head).lastHead = vq.lastHead := rfl

end Frames

end Virtqueue

end AosKernel.Gpu
