import Mathlib.Data.List.Perm.Basic
import AosKernel.Lib.Trace
import AosKernel.Io.NvmeQueue

namespace AosKernel.Io

open Verif

-- A queue between the driver and the controller. `sqHead`, `cqTail` and
-- `phase` are the controller's. The rest are histories: the commands accepted,
-- as they stand in the ring, how many have been fetched, those that are fetched
-- and not completed, each with its number, the completions posted, each with the
-- number of its command, those the driver has consumed, and for each poll that
-- has returned TRUE the number of the command it was called for and the number
-- of the completion it returned.
structure NvmeState where
  queue : NvmeQueue
  sqHead : Nat
  cqTail : Nat
  phase : Bool
  accepted : List NvmeCommand
  fetched : Nat
  inProgress : List (Nat × NvmeCommand)
  posted : List (Nat × NvmeCompletion)
  consumed : List NvmeCompletion
  returned : List (Nat × Nat)

inductive NvmeAction
  | send (cmd : NvmeCommand)
  | notify
  | fetch
  | complete (n : Nat) (cmd : NvmeCommand) (dw0 dw1 sqId status : Nat)
  | poll (n : Nat)

namespace NvmeState

def setup : NvmeState where
  queue := NvmeQueue.setup
  sqHead := 0
  cqTail := 0
  phase := true
  accepted := []
  fetched := 0
  inProgress := []
  posted := []
  consumed := []
  returned := []

def send (kind : QueueKind) (s : NvmeState) (cmd : NvmeCommand) : NvmeState :=
  let (queue, sent) := kind.sendCmd s.queue cmd
  { s with
    queue
    accepted := if sent.isSome then s.accepted ++ [queue.sq s.queue.sqTail] else s.accepted }

def notify (kind : QueueKind) (s : NvmeState) : NvmeState :=
  { s with queue := kind.notifyDevice s.queue }

-- The controller reads the command at its head.
def fetch (kind : QueueKind) (s : NvmeState) : NvmeState :=
  { s with
    sqHead := Ring.next kind.size s.sqHead
    fetched := s.fetched + 1
    inProgress := (s.fetched, s.queue.sq s.sqHead) :: s.inProgress }

-- The controller's completion of a command, with the phase it is in.
def completion (s : NvmeState) (cmd : NvmeCommand) (dw0 dw1 sqId status : Nat) : NvmeCompletion :=
  ⟨dw0, dw1, s.sqHead, sqId, cmd.cid, 2 * status + s.phase.toNat⟩

def complete (kind : QueueKind) (s : NvmeState) (n : Nat) (cmd : NvmeCommand)
    (dw0 dw1 sqId status : Nat) : NvmeState :=
  let cqe := s.completion cmd dw0 dw1 sqId status
  { s with
    queue := { s.queue with cq := Function.update s.queue.cq s.cqTail cqe }
    cqTail := Ring.next kind.size s.cqTail
    phase := if s.cqTail + 1 ≥ kind.size then !s.phase else s.phase
    inProgress := s.inProgress.erase (n, cmd)
    posted := s.posted ++ [(n, cqe)] }

-- A turn of the poll for command number `n`, which was given identifier `cid`.
def poll (kind : QueueKind) (s : NvmeState) (n cid : Nat) : NvmeState :=
  let (queue, completed) := kind.pollTurn s.queue cid
  { s with
    queue
    consumed := s.consumed ++ s.queue.nextCompletion.toList
    returned := if completed.isSome then (n, s.consumed.length) :: s.returned else s.returned }

end NvmeState

-- The driver's steps in any order, and a controller that fetches the commands
-- it sees in order and completes those it has fetched in any order.
inductive NvmeStep (kind : QueueKind) (s : NvmeState) : NvmeAction → NvmeState → Prop
  | send {cmd} : NvmeStep kind s (.send cmd) (s.send kind cmd)
  | notify : NvmeStep kind s .notify (s.notify kind)
  | fetch (hpending : s.sqHead ≠ s.queue.sqDb) : NvmeStep kind s .fetch (s.fetch kind)
  | complete {n cmd dw0 dw1 sqId status} (hmem : (n, cmd) ∈ s.inProgress) :
      NvmeStep kind s (.complete n cmd dw0 dw1 sqId status)
        (s.complete kind n cmd dw0 dw1 sqId status)
  | poll {n cmd} (hcmd : s.accepted[n]? = some cmd) :
      NvmeStep kind s (.poll n) (s.poll kind n cmd.cid)

namespace NvmeState

-- The identifier of command number `n`.
def cidOf (s : NvmeState) (n : Nat) : Option Nat := s.accepted[n]?.map NvmeCommand.cid

-- The numbers of the commands whose completion has been consumed.
def retired (s : NvmeState) : List Nat := (s.posted.take s.consumed.length).map Prod.fst

-- The numbers of the others: completed, in progress, and not fetched.
def outstanding (s : NvmeState) : List Nat :=
  (s.posted.drop s.consumed.length).map Prod.fst ++ s.inProgress.map Prod.fst ++
    List.range' s.fetched (s.accepted.length - s.fetched)

-- What the bits and counters of the driver have to do with the commands.
structure SubmitInv (kind : QueueKind) (s : NvmeState) : Prop where
  sq : Ring.Holds kind.size s.queue.sq s.accepted s.fetched
  sqTail : s.queue.sqTail = s.accepted.length % kind.size
  sqHead : s.sqHead = s.fetched % kind.size
  sqDb : ∃ d, s.fetched ≤ d ∧ d ≤ s.accepted.length ∧ s.queue.sqDb = d % kind.size
  inProgress : ∀ x ∈ s.inProgress, s.accepted[x.1]? = some x.2
  sqCount : s.queue.sqCount = s.outstanding.length
  bound : s.queue.sqCount ≤ kind.size
  distinct : (s.outstanding.map s.cidOf).Nodup
  bitmap : ∀ c < 64, s.queue.cidBitmap.getLsbD c = true ↔ some c ∈ s.outstanding.map s.cidOf
  range : ∀ cmd ∈ s.accepted, cmd.cid < kind.size

def phaseBit (cqe : NvmeCompletion) : Bool := NVME_CQE_PHASE cqe.status == 1

structure CompleteInv (kind : QueueKind) (s : NvmeState) : Prop where
  cq : Ring.Marked kind.size phaseBit s.queue.cq (s.posted.map Prod.snd) s.consumed.length
  cqTail : s.cqTail = s.posted.length % kind.size
  phase : s.phase = Ring.lap kind.size s.posted.length
  cqHead : s.queue.cqHead = s.consumed.length % kind.size
  cqPhase : s.queue.cqPhase = (Ring.lap kind.size s.consumed.length).toNat
  consumed : s.consumed <+: s.posted.map Prod.snd
  posted : ∀ x ∈ s.posted, s.cidOf x.1 = some x.2.cid
  numbers : (s.retired ++ s.outstanding).Perm (List.range s.accepted.length)

structure Inv (kind : QueueKind) (s : NvmeState) : Prop where
  submission : SubmitInv kind s
  completion : CompleteInv kind s

theorem setup_inv (kind : QueueKind) : Inv kind setup := by
  refine ⟨⟨.nil _ _, rfl, rfl, ⟨0, Nat.le_refl 0, Nat.le_refl 0, rfl⟩, ?_, rfl, Nat.zero_le _,
    List.nodup_nil, ?_, ?_⟩, ⟨.nil fun _ _ => (by decide : phaseBit ⟨0, 0, 0, 0, 0, 0⟩ = false), rfl, ?_, rfl, ?_, List.prefix_rfl, ?_, .rfl⟩⟩
  · intro x hx
    cases hx
  · intro c _
    simp [setup, NvmeQueue.setup, outstanding]
  · intro cmd hcmd
    cases hcmd
  · exact Ring.lap_zero.symm
  · rw [setup, List.length_nil, Ring.lap_zero]
    rfl
  · intro x hx
    cases hx

section Steps

variable {kind : QueueKind} {s t : NvmeState} {n : Nat} {cmd : NvmeCommand}

theorem Inv.outstanding_lt (h : Inv kind s) (hn : n ∈ s.outstanding) : n < s.accepted.length :=
  List.mem_range.mp (h.completion.numbers.subset (List.mem_append_right _ hn))

-- No more commands wait to be fetched than are outstanding.
theorem Inv.unfetched_le (h : Inv kind s) :
    s.accepted.length - s.fetched ≤ s.queue.sqCount := by
  rw [h.submission.sqCount, outstanding, List.length_append, List.length_range']
  exact Nat.le_add_left _ _

-- The bits and the counter depend on which commands are outstanding only.
theorem SubmitInv.of_perm (h : SubmitInv kind s) (hperm : t.outstanding.Perm s.outstanding)
    (haccepted : t.accepted = s.accepted) (hcount : t.queue.sqCount = s.queue.sqCount)
    (hbitmap : t.queue.cidBitmap = s.queue.cidBitmap) :
    t.queue.sqCount = t.outstanding.length ∧ t.queue.sqCount ≤ kind.size ∧
      (t.outstanding.map t.cidOf).Nodup ∧
      ∀ c < 64, t.queue.cidBitmap.getLsbD c = true ↔ some c ∈ t.outstanding.map t.cidOf := by
  have hcid : t.cidOf = s.cidOf := by
    unfold cidOf
    rw [haccepted]
  have hmap : (t.outstanding.map t.cidOf).Perm (s.outstanding.map s.cidOf) := by
    rw [hcid]
    exact hperm.map _
  refine ⟨?_, hcount ▸ h.bound, hmap.nodup_iff.mpr h.distinct, fun c hc => ?_⟩
  · rw [hcount, h.sqCount, hperm.length_eq]
  · rw [hbitmap, hmap.mem_iff]
    exact h.bitmap c hc

theorem send_refused (hrefused : (s.queue.sendCmd kind.size cmd).2 = none) :
    s.send kind cmd = s := by
  simp [send, kind.sendCmd_eq, hrefused, NvmeQueue.sendCmd_none hrefused]

-- The command of an accepted send is appended with a new identifier.
def accept (kind : QueueKind) (s : NvmeState) (cmd : NvmeCommand) (cid : Nat) : NvmeState :=
  { s with
    queue := s.queue.accept kind.size cmd cid
    accepted := s.accepted ++ [cmd.withCid cid] }

theorem send_accepted {cid : Nat} (hsent : (s.queue.sendCmd kind.size cmd).2 = some cid) :
    s.send kind cmd = s.accept kind cmd cid := by
  simp [send, kind.sendCmd_eq, hsent, (NvmeQueue.sendCmd_some hsent).2.2, NvmeQueue.accept,
    accept]

section Accept

variable {cid : Nat}

theorem accept_length : (s.accept kind cmd cid).accepted.length = s.accepted.length + 1 :=
  List.length_append

-- Those accepted before keep their numbers, and with them their identifiers.
theorem accept_old (hn : n < s.accepted.length) :
    (s.accept kind cmd cid).accepted[n]? = s.accepted[n]? ∧
      (s.accept kind cmd cid).cidOf n = s.cidOf n := by
  have hsame : (s.accept kind cmd cid).accepted[n]? = s.accepted[n]? :=
    List.getElem?_append_left hn
  exact ⟨hsame, by rw [cidOf, hsame, cidOf]⟩

theorem accept_new : (s.accept kind cmd cid).cidOf s.accepted.length = some cid := by
  rw [accept, cidOf, List.getElem?_append_right (Nat.le_refl _), Nat.sub_self]
  simp

theorem accept_outstanding (hfetched : s.fetched ≤ s.accepted.length) :
    (s.accept kind cmd cid).outstanding = s.outstanding ++ [s.accepted.length] := by
  have hlen : s.accepted.length + 1 - s.fetched = s.accepted.length - s.fetched + 1 := by omega
  simp only [outstanding, accept, List.length_append, List.length_singleton]
  rw [hlen, List.range'_concat, Nat.one_mul, Nat.add_sub_cancel' hfetched]
  simp only [List.append_assoc]

theorem Inv.accept_cids (h : Inv kind s) :
    (s.accept kind cmd cid).outstanding.map (s.accept kind cmd cid).cidOf =
      s.outstanding.map s.cidOf ++ [some cid] := by
  rw [accept_outstanding h.submission.sq.le, List.map_append, List.map_singleton, accept_new]
  refine congrArg (· ++ [some cid]) (List.map_congr_left fun n hn => ?_)
  exact (accept_old (h.outstanding_lt hn)).2

theorem Inv.accept_submission (h : Inv kind s) (hcount : s.queue.sqCount + 1 ≤ kind.size)
    (hcid : cid < kind.size) (hclear : s.queue.cidBitmap.getLsbD cid = false) :
    SubmitInv kind (s.accept kind cmd cid) := by
  have hcid64 : cid < 64 := Nat.lt_of_lt_of_le hcid kind.size_bounds.2
  have hfetched := h.submission.sq.le
  have hunfetched := h.unfetched_le
  have hfresh : some cid ∉ s.outstanding.map s.cidOf := by
    rw [← h.submission.bitmap cid hcid64, hclear]
    exact Bool.noConfusion
  refine { h.submission with
    sq := ?_, sqTail := ?_, sqDb := ?_, inProgress := ?_, sqCount := ?_, bound := hcount
    distinct := ?_, bitmap := ?_, range := ?_ }
  · have hpush := h.submission.sq.push (by omega) (cmd.withCid cid)
    rwa [← h.submission.sqTail] at hpush
  · rw [accept_length, ← Ring.next_mod kind.size_bounds.1, ← h.submission.sqTail]
    rfl
  · obtain ⟨d, hd, hdle, hdb⟩ := h.submission.sqDb
    exact ⟨d, hd, by rw [accept_length]; omega, hdb⟩
  · intro x hx
    have hold := h.submission.inProgress x hx
    rwa [(accept_old (List.getElem?_eq_some_iff.mp hold).1).1]
  · rw [accept_outstanding hfetched, List.length_append, ← h.submission.sqCount]
    rfl
  · rw [h.accept_cids]
    exact (List.perm_append_comm.nodup_iff).mp
      (List.nodup_cons.mpr ⟨hfresh, h.submission.distinct⟩)
  · intro c hc
    rw [h.accept_cids, List.mem_append, ← h.submission.bitmap c hc, List.mem_singleton,
      Option.some_inj]
    change (s.queue.cidBitmap ||| 1#64 <<< cid).getLsbD c = true ↔ _
    rw [NvmeQueue.getLsbD_setCid s.queue.cidBitmap hcid64 c, Bool.or_eq_true,
      decide_eq_true_iff]
  · intro cmd' hcmd'
    obtain hmem | hmem := List.mem_append.mp hcmd'
    · exact h.submission.range cmd' hmem
    · rw [List.mem_singleton.mp hmem, NvmeCommand.withCid_cid]
      exact hcid

theorem Inv.accept_completion (h : Inv kind s) : CompleteInv kind (s.accept kind cmd cid) := by
  refine { h.completion with posted := fun x hx => ?_, numbers := ?_ }
  · have hcid := h.completion.posted x hx
    obtain ⟨cmd', hcmd', -⟩ := Option.map_eq_some_iff.mp hcid
    rw [(accept_old (List.getElem?_eq_some_iff.mp hcmd').1).2]
    exact hcid
  · rw [accept_outstanding h.submission.sq.le, accept_length, List.range_succ,
      ← List.append_assoc]
    exact h.completion.numbers.append_right _

end Accept

theorem Inv.send (h : Inv kind s) : Inv kind (s.send kind cmd) := by
  cases hsent : (s.queue.sendCmd kind.size cmd).2 with
  | none => rwa [send_refused hsent]
  | some cid =>
      obtain ⟨hcount, hfree, -⟩ := NvmeQueue.sendCmd_some hsent
      obtain ⟨hcid, hclear⟩ := NvmeQueue.freeCid_spec kind.size_bounds.2 hfree
      rw [send_accepted hsent]
      exact ⟨h.accept_submission hcount hcid hclear, h.accept_completion⟩

theorem Inv.notify (h : Inv kind s) : Inv kind (s.notify kind) := by
  obtain ⟨hsubmit, hcomplete⟩ := h
  rw [NvmeState.notify, kind.notifyDevice_eq]
  refine ⟨{ hsubmit with sqDb := ?_ }, { hcomplete with }⟩
  exact ⟨s.accepted.length, hsubmit.sq.le, Nat.le_refl _, hsubmit.sqTail⟩

theorem Inv.fetched_lt (h : Inv kind s) (hpending : s.sqHead ≠ s.queue.sqDb) :
    s.fetched < s.accepted.length := by
  obtain ⟨d, hd, hdle, hdb⟩ := h.submission.sqDb
  rw [h.submission.sqHead, hdb] at hpending
  have hne : s.fetched ≠ d := fun heq => hpending (by rw [heq])
  omega

theorem Inv.fetch (h : Inv kind s) (hpending : s.sqHead ≠ s.queue.sqDb) :
    Inv kind (s.fetch kind) := by
  have hlt := h.fetched_lt hpending
  have hout : (s.fetch kind).outstanding.Perm s.outstanding := by
    have hlen : s.accepted.length - s.fetched = s.accepted.length - (s.fetched + 1) + 1 := by
      omega
    simp only [outstanding, NvmeState.fetch, List.map_cons]
    rw [hlen, List.range'_succ, List.append_assoc, List.append_assoc]
    refine List.Perm.append_left _ ?_
    exact List.perm_middle.symm
  obtain ⟨hcount, hbound, hdistinct, hbitmap⟩ := h.submission.of_perm hout rfl rfl rfl
  refine ⟨{ h.submission with
    sq := h.submission.sq.pop hlt
    sqHead := ?_
    sqDb := ?_
    inProgress := ?_
    sqCount := hcount
    bound := hbound
    distinct := hdistinct
    bitmap := hbitmap }, { h.completion with numbers := ?_ }⟩
  · change Ring.next kind.size s.sqHead = (s.fetched + 1) % kind.size
    rw [← Ring.next_mod kind.size_bounds.1, ← h.submission.sqHead]
  · obtain ⟨d, hd, hdle, hdb⟩ := h.submission.sqDb
    refine ⟨d, ?_, hdle, hdb⟩
    have hne : s.fetched ≠ d := by
      rintro rfl
      exact hpending (h.submission.sqHead.trans hdb.symm)
    exact Nat.lt_of_le_of_ne hd hne
  · intro x hx
    obtain rfl | hx := List.mem_cons.mp hx
    · have hfront := h.submission.sq.front hlt
      rwa [← h.submission.sqHead] at hfront
    · exact h.submission.inProgress x hx
  · exact (hout.append_left _).trans h.completion.numbers

theorem phaseBit_completion (s : NvmeState) (cmd : NvmeCommand) (dw0 dw1 sqId status : Nat) :
    phaseBit (s.completion cmd dw0 dw1 sqId status) = s.phase := by
  have hbit : (2 * status + s.phase.toNat) &&& 1 = s.phase.toNat := by
    rw [Nat.and_one_is_mod, Nat.mul_add_mod]
    cases s.phase <;> rfl
  simp only [phaseBit, completion, NVME_CQE_PHASE, hbit]
  cases s.phase <;> rfl

theorem Inv.complete (h : Inv kind s) (hmem : (n, cmd) ∈ s.inProgress) (dw0 dw1 sqId status : Nat) :
    Inv kind (s.complete kind n cmd dw0 dw1 sqId status) := by
  have hpos := kind.size_bounds.1
  have hpre := h.completion.cq.le
  rw [List.length_map] at hpre
  have hperm := List.perm_cons_erase hmem
  have hdrop : (s.posted ++ [(n, s.completion cmd dw0 dw1 sqId status)]).drop s.consumed.length =
      s.posted.drop s.consumed.length ++ [(n, s.completion cmd dw0 dw1 sqId status)] :=
    List.drop_append_of_le_length hpre
  have htake : (s.posted ++ [(n, s.completion cmd dw0 dw1 sqId status)]).take s.consumed.length =
      s.posted.take s.consumed.length :=
    List.take_append_of_le_length hpre
  have hout : (s.complete kind n cmd dw0 dw1 sqId status).outstanding.Perm s.outstanding := by
    simp only [outstanding, NvmeState.complete, hdrop, List.map_append, List.map_singleton]
    refine List.Perm.append_right _ ?_
    rw [List.append_assoc]
    refine List.Perm.append_left _ ?_
    exact (hperm.map Prod.fst).symm
  have hroom : s.posted.length < s.consumed.length + kind.size := by
    have hlen := h.submission.sqCount
    have hbound := h.submission.bound
    have hinProgress := List.length_pos_of_mem hmem
    simp only [outstanding, List.length_append, List.length_map, List.length_drop] at hlen
    omega
  have hphase := phaseBit_completion s cmd dw0 dw1 sqId status
  obtain ⟨hcount, hbound, hdistinct, hbitmap⟩ := h.submission.of_perm hout rfl rfl rfl
  refine ⟨{ h.submission with
    inProgress := fun x hx => h.submission.inProgress x (List.mem_of_mem_erase hx)
    sqCount := hcount
    bound := hbound
    distinct := hdistinct
    bitmap := hbitmap }, ⟨?_, ?_, ?_, h.completion.cqHead, h.completion.cqPhase, ?_, ?_, ?_⟩⟩
  · have hpush := h.completion.cq.push (a := s.completion cmd dw0 dw1 sqId status)
      (by rwa [List.length_map]) (by rw [hphase, List.length_map, h.completion.phase])
    rw [List.length_map, ← h.completion.cqTail] at hpush
    simpa only [NvmeState.complete, List.map_append, List.map_singleton] using hpush
  · simp only [NvmeState.complete, List.length_append, List.length_singleton]
    rw [← Ring.next_mod hpos, ← h.completion.cqTail]
  · simp only [NvmeState.complete, List.length_append, List.length_singleton]
    rw [Ring.lap_succ hpos, ← h.completion.cqTail, ← h.completion.phase]
  · simp only [NvmeState.complete, List.map_append]
    exact h.completion.consumed.trans (List.prefix_append _ _)
  · intro x hx
    obtain hx | hx := List.mem_append.mp hx
    · exact h.completion.posted x hx
    · rw [List.mem_singleton.mp hx]
      exact congrArg (Option.map NvmeCommand.cid) (h.submission.inProgress _ hmem)
  · have hretired : (s.complete kind n cmd dw0 dw1 sqId status).retired = s.retired :=
      congrArg (List.map Prod.fst) htake
    rw [hretired]
    exact (hout.append_left _).trans h.completion.numbers

-- The driver sees a completion exactly if one is posted and not consumed, and
-- it is the oldest such.
theorem Inv.nextCompletion_eq (h : Inv kind s) :
    s.queue.nextCompletion = (s.posted.map Prod.snd)[s.consumed.length]? := by
  have hbit : NVME_CQE_PHASE (s.queue.cq s.queue.cqHead).status = s.queue.cqPhase ↔
      phaseBit (s.queue.cq s.queue.cqHead) = Ring.lap kind.size s.consumed.length := by
    rw [h.completion.cqPhase]
    simp only [phaseBit, NVME_CQE_PHASE, Nat.and_one_is_mod]
    obtain hzero | hone := Nat.mod_two_eq_zero_or_one (s.queue.cq s.queue.cqHead).status
    · rw [hzero]
      cases Ring.lap kind.size s.consumed.length <;> simp
    · rw [hone]
      cases Ring.lap kind.size s.consumed.length <;> simp
  rw [h.completion.cqHead, h.completion.cq.bit_iff kind.size_bounds.1] at hbit
  unfold NvmeQueue.nextCompletion
  rw [h.completion.cqHead]
  by_cases hlt : s.consumed.length < (s.posted.map Prod.snd).length
  · rw [if_pos (hbit.mpr hlt), h.completion.cq.front hlt]
  · rw [if_neg (mt hbit.mp hlt), List.getElem?_eq_none (Nat.le_of_not_lt hlt)]

theorem poll_none {cid : Nat} (hnext : s.queue.nextCompletion = none) : s.poll kind n cid = s := by
  simp [NvmeState.poll, kind.pollTurn_eq, NvmeQueue.pollTurn, hnext]

-- The state after a turn of the poll for command number `n` has found `cqe`.
def consume (kind : QueueKind) (s : NvmeState) (n cid : Nat) (cqe : NvmeCompletion) : NvmeState :=
  { s with
    queue := s.queue.consume kind.size cqe.cid
    consumed := s.consumed ++ [cqe]
    returned := if cqe.cid = cid then (n, s.consumed.length) :: s.returned else s.returned }

theorem poll_some {cid : Nat} {cqe : NvmeCompletion} (hnext : s.queue.nextCompletion = some cqe) :
    s.poll kind n cid = s.consume kind n cid cqe := by
  by_cases hcid : cqe.cid = cid
  · simp [NvmeState.poll, kind.pollTurn_eq, NvmeQueue.pollTurn, hnext, hcid, consume]
  · simp [NvmeState.poll, kind.pollTurn_eq, NvmeQueue.pollTurn, hnext, hcid, consume]

section Consume

variable {m cid : Nat} {cqe : NvmeCompletion}

theorem consume_length :
    (s.consume kind n cid cqe).consumed.length = s.consumed.length + 1 := List.length_append

-- The command whose completion is consumed is the first of the outstanding ones.
theorem consume_outstanding (hfirst : s.posted[s.consumed.length]? = some (m, cqe)) :
    s.outstanding = m :: (s.consume kind n cid cqe).outstanding := by
  obtain ⟨hlt, hget⟩ := List.getElem?_eq_some_iff.mp hfirst
  rw [outstanding, outstanding, consume_length, List.drop_eq_getElem_cons hlt, hget]
  rfl

theorem consume_retired (hfirst : s.posted[s.consumed.length]? = some (m, cqe)) :
    (s.consume kind n cid cqe).retired = s.retired ++ [m] := by
  rw [retired, consume_length]
  change ((s.posted.take (s.consumed.length + 1)).map Prod.fst) = _
  rw [List.take_add_one, hfirst, List.map_append]
  rfl

theorem Inv.consume_submission (h : Inv kind s)
    (hfirst : s.posted[s.consumed.length]? = some (m, cqe)) :
    SubmitInv kind (s.consume kind n cid cqe) := by
  have hm := h.completion.posted _ (List.mem_of_getElem? hfirst)
  have hout : s.outstanding = m :: (s.consume kind n cid cqe).outstanding :=
    consume_outstanding hfirst
  have hcids : s.outstanding.map s.cidOf = some cqe.cid ::
      (s.consume kind n cid cqe).outstanding.map (s.consume kind n cid cqe).cidOf := by
    rw [hout, List.map_cons, hm]
    rfl
  obtain ⟨hfresh, hdistinct⟩ := List.nodup_cons.mp (hcids ▸ h.submission.distinct)
  have hcqe : cqe.cid < 64 := by
    obtain ⟨cmd, hcmd, hcid⟩ := Option.map_eq_some_iff.mp hm
    rw [← hcid]
    exact Nat.lt_of_lt_of_le (h.submission.range cmd (List.mem_of_getElem? hcmd))
      kind.size_bounds.2
  have hcount : s.queue.sqCount = (s.consume kind n cid cqe).outstanding.length + 1 := by
    rw [h.submission.sqCount, hout]
    rfl
  have hcount' : (s.consume kind n cid cqe).queue.sqCount = s.queue.sqCount - 1 :=
    if_pos (by omega)
  have hbound := h.submission.bound
  refine { h.submission with
    sqCount := by omega, bound := by omega, distinct := hdistinct, bitmap := fun c hc => ?_ }
  have hbit := h.submission.bitmap c hc
  rw [hcids, List.mem_cons, Option.some_inj] at hbit
  have hclear : (s.consume kind n cid cqe).queue.cidBitmap.getLsbD c =
      (s.queue.cidBitmap.getLsbD c && !decide (c = cqe.cid)) :=
    NvmeQueue.getLsbD_clearCid s.queue.cidBitmap hcqe hc
  rw [hclear, Bool.and_eq_true, hbit, Bool.not_eq_true', decide_eq_false_iff_not]
  constructor
  · rintro ⟨heq | hmem, hne⟩
    · exact absurd heq hne
    · exact hmem
  · intro hmem
    refine ⟨.inr hmem, ?_⟩
    rintro rfl
    exact hfresh hmem

theorem Inv.consume_completion (h : Inv kind s)
    (hfirst : s.posted[s.consumed.length]? = some (m, cqe)) :
    CompleteInv kind (s.consume kind n cid cqe) := by
  have hpos := kind.size_bounds.1
  have hlt := (List.getElem?_eq_some_iff.mp hfirst).1
  refine { h.completion with
    cq := ?_, cqHead := ?_, cqPhase := ?_, consumed := ?_, numbers := ?_ }
  · rw [consume_length]
    exact h.completion.cq.pop (by rwa [List.length_map])
  · rw [consume_length, ← Ring.next_mod hpos, ← h.completion.cqHead]
    rfl
  · rw [consume_length, Ring.lap_succ hpos, ← h.completion.cqHead]
    simp only [consume, NvmeQueue.consume, h.completion.cqPhase]
    cases Ring.lap kind.size s.consumed.length <;> split <;> rfl
  · refine Ring.prefix_snoc h.completion.consumed ?_
    rw [List.getElem?_map]
    exact congrArg (Option.map Prod.snd) hfirst
  · rw [consume_retired hfirst, List.append_assoc, List.singleton_append,
      ← consume_outstanding hfirst]
    exact h.completion.numbers

end Consume

theorem Inv.poll (h : Inv kind s) (cid : Nat) : Inv kind (s.poll kind n cid) := by
  have hnext := h.nextCompletion_eq
  rw [List.getElem?_map] at hnext
  cases hfirst : s.posted[s.consumed.length]? with
  | none =>
      rw [hfirst] at hnext
      rwa [poll_none hnext]
  | some x =>
      obtain ⟨m, cqe⟩ := x
      rw [hfirst] at hnext
      rw [poll_some hnext]
      exact ⟨h.consume_submission hfirst, h.consume_completion hfirst⟩

theorem Inv.step {a : NvmeAction} (h : Inv kind s) (hs : NvmeStep kind s a t) : Inv kind t := by
  cases hs with
  | send => exact h.send
  | notify => exact h.notify
  | fetch hpending => exact h.fetch hpending
  | complete hmem => exact h.complete hmem _ _ _ _
  | poll _ => exact h.poll _

end Steps

end NvmeState

end AosKernel.Io
