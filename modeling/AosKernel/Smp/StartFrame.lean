import AosKernel.Smp.Threads

namespace AosKernel.Smp

open Verif Bytes Mm

-- What the walk of smp_push_task over a finished list comes to: the first DEAD
-- thread whose stack is large enough, or the end of the list.
inductive FirstReusable (m : Machine) : Option ThreadRef → Option ThreadRef → Prop
  | nil : FirstReusable m none none
  | found {t} : (m.threads t).status = .dead → 1024 ≤ (m.threads t).stackSize →
      FirstReusable m (some t) (some t)
  | skip {t r} : ¬ ((m.threads t).status = .dead ∧ 1024 ≤ (m.threads t).stackSize) →
      FirstReusable m (m.threads t).next r → FirstReusable m (some t) r

theorem FirstReusable.unique {m : Machine} {p r r' : Option ThreadRef} (h : FirstReusable m p r)
    (h' : FirstReusable m p r') : r = r' := by
  induction h with
  | nil => cases h'; rfl
  | found hdead hsize =>
      cases h' with
      | found => rfl
      | skip hnot => exact absurd ⟨hdead, hsize⟩ hnot
  | skip hnot _ ih =>
      cases h' with
      | found hdead hsize => exact absurd ⟨hdead, hsize⟩ hnot
      | skip _ h' => exact ih h'

section Push

variable {entry arg : BitVec 64}

theorem linkReady_threads (m : Machine) (new x : ThreadRef) :
    (linkReady m new).threads x = { m.threads x with
      next := if m.core.readyListEnd = some x then some new else (m.threads x).next
      prev := if x = new then m.core.readyListEnd else (m.threads x).prev } := by
  simp only [linkReady, setThread_threads, setChecked_threads, setChecked_core]
  split
  · rename_i h
    subst h
    split <;> rfl
  · split <;> rfl

-- A frame that create_thread or the reset of a finished thread has left.
structure Framed (entry arg : BitVec 64) (m : Machine) (t : ThreadRef) : Prop where
  rsp : (m.threads t).rsp + 64 = (m.threads t).stackBottom + (m.threads t).stackSize
  size : (m.threads t).stackSize = PAGE_SIZE
  words : ∀ i w, (startFrame entry arg)[i]? = some w →
    readWord m.memory ((m.threads t).stackBottom + (m.threads t).stackSize - 8 * (i + 1)) = w

theorem createThread_framed {m m' : Machine} {grant : Grant} {new : ThreadRef}
    (h : createThread entry arg m grant = (some new, m')) : Framed entry arg m' new := by
  unfold createThread at h
  split at h
  · cases h
  · dsimp only at h
    split at h
    · cases h
    · simp only [Prod.mk.injEq, Option.some.injEq] at h
      obtain ⟨rfl, rfl⟩ := h
      refine ⟨?_, ?_, fun i w hw => ?_⟩
      · simp only [setThread_threads, if_true, startFrame, List.length_cons, List.length_nil]
        unfold PAGE_SIZE
        omega
      · simp only [setThread_threads, if_true]
      · simp only [setThread_threads, if_true, setThread_memory]
        refine readWord_pushWords _ _ _ ?_ hw
        simp only [startFrame, List.length_cons, List.length_nil]
        unfold PAGE_SIZE
        omega

end Push

section Switch

-- What the switch saves on the stack it leaves.
def savedWords (m : Machine) (old : ThreadRef) : List (BitVec 64) :=
  [BitVec.ofNat 64 old, m.cpu.rbp, m.cpu.rbx, m.cpu.r12, m.cpu.r13, m.cpu.r14, m.cpu.r15]

-- The machine when a thread is switched to first: its stack and what its
-- record says of it are as smp_push_task left them in `m`, and the stack in
-- use lies elsewhere.
structure Undisturbed (m : Machine) (new : ThreadRef) (u : Machine) (cur : ThreadRef) : Prop where
  other : new ≠ cur
  thread : (u.threads new).rsp = (m.threads new).rsp ∧
    (u.threads new).stackBottom = (m.threads new).stackBottom ∧
      (u.threads new).stackSize = (m.threads new).stackSize
  memory : ∀ x, (m.threads new).stackBottom ≤ x →
    x < (m.threads new).stackBottom + (m.threads new).stackSize → u.memory x = m.memory x
  room : 56 ≤ u.cpu.rsp
  apart : u.cpu.rsp ≤ (m.threads new).stackBottom ∨
    (m.threads new).stackBottom + (m.threads new).stackSize + 56 ≤ u.cpu.rsp

theorem Undisturbed.readWord {m u : Machine} {new cur : ThreadRef} (h : Undisturbed m new u cur)
    {a : Nat} (hlo : (m.threads new).stackBottom ≤ a)
    (hhi : a + 8 ≤ (m.threads new).stackBottom + (m.threads new).stackSize) :
    readWord (pushWords u.memory u.cpu.rsp (savedWords u cur)) a = Bytes.readWord m.memory a := by
  refine readWord_congr fun i hi => ?_
  have hroom := h.room
  have hapart := h.apart
  rw [pushWords_other, h.memory _ (by omega) (by omega)]
  · simp only [savedWords, List.length_cons, List.length_nil]
    omega
  · simp only [savedWords, List.length_cons, List.length_nil]
    omega

end Switch

end AosKernel.Smp
