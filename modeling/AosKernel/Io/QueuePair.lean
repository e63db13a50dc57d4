import Mathlib.Data.List.Nodup
import AosKernel.Io.NvmeRuns

namespace AosKernel.Io

open Verif

namespace NvmeState

-- The commands that are not retired have different identifiers, each poll that
-- returned TRUE has returned the completion of its own command, and the
-- completions consumed are those posted, each once and in order: the next to be
-- consumed is the one after them.
structure Matched (s : NvmeState) : Prop where
  distinct : ∀ n m, n < s.accepted.length → m < s.accepted.length → n ∉ s.retired →
    m ∉ s.retired → n ≠ m → s.cidOf n ≠ s.cidOf m
  own : ∀ x ∈ s.returned, (s.posted.map Prod.fst)[x.2]? = some x.1
  once : s.consumed <+: s.posted.map Prod.snd
  next : s.queue.nextCompletion = (s.posted.map Prod.snd)[s.consumed.length]?

-- The command polled for has not been retired by another call when a completion
-- with its identifier comes.
def PollsOwn (s : NvmeState) : NvmeAction → Prop
  | .poll n => ∀ cqe, s.queue.nextCompletion = some cqe → s.cidOf n = some cqe.cid →
      n ∉ s.retired
  | _ => True

-- The commands the controller sees between its head and the doorbell. It takes
-- the ring for empty when they are equal.
def pending (kind : QueueKind) (s : NvmeState) : List NvmeCommand :=
  (List.range ((s.queue.sqDb + kind.size - s.sqHead) % kind.size)).map fun j =>
    s.queue.sq ((s.sqHead + j) % kind.size)

-- A command is put where none is still to be fetched, and after a doorbell write
-- the controller sees all those that are.
def RingRight (kind : QueueKind) (s : NvmeState) : NvmeAction → Prop
  | .send cmd => (kind.sendCmd s.queue cmd).2.isSome →
      ∀ k, s.fetched ≤ k → k < s.accepted.length → s.queue.sqTail ≠ k % kind.size
  | .notify => (s.notify kind).pending kind = s.accepted.drop s.fetched
  | _ => True

-- The doorbell is written when at least one slot holds no command to be fetched.
def NotFull (kind : QueueKind) (s : NvmeState) : NvmeAction → Prop
  | .notify => s.accepted.length - s.fetched < kind.size
  | _ => True

section Steps

variable {kind : QueueKind} {s t : NvmeState} {n : Nat}

theorem Inv.retired_iff (h : Inv kind s) (hn : n < s.accepted.length) :
    n ∉ s.retired ↔ n ∈ s.outstanding := by
  have hnodup := h.completion.numbers.nodup_iff.mpr List.nodup_range
  have hmem := (h.completion.numbers.mem_iff (a := n)).mpr (List.mem_range.mpr hn)
  constructor
  · exact (List.mem_append.mp hmem).resolve_left
  · exact fun hout hretired => (List.nodup_append.mp hnodup).2.2 n hretired n hout rfl

theorem Inv.cid_inj (h : Inv kind s) {m : Nat} (hn : n ∈ s.outstanding) (hm : m ∈ s.outstanding)
    (hcid : s.cidOf n = s.cidOf m) : n = m :=
  List.inj_on_of_nodup_map h.submission.distinct hn hm hcid

theorem Inv.matched_iff (h : Inv kind s) :
    Matched s ↔ ∀ x ∈ s.returned, (s.posted.map Prod.fst)[x.2]? = some x.1 := by
  refine ⟨Matched.own, fun hown => ⟨fun n m hn hm hnr hmr hne hcid => hne ?_, hown,
    h.completion.consumed, h.nextCompletion_eq⟩⟩
  exact h.cid_inj ((h.retired_iff hn).mp hnr) ((h.retired_iff hm).mp hmr) hcid

-- A poll that finds the completion of command `m`.
theorem Inv.poll_matched_iff (h : Inv kind s) (hmatched : Matched s) {cmd : NvmeCommand}
    (hcmd : s.accepted[n]? = some cmd) :
    Matched (s.poll kind n cmd.cid) ↔ PollsOwn s (.poll n) := by
  have hcid : s.cidOf n = some cmd.cid := congrArg (Option.map NvmeCommand.cid) hcmd
  have hn := (List.getElem?_eq_some_iff.mp hcmd).1
  have hnext := h.nextCompletion_eq
  rw [List.getElem?_map] at hnext
  rw [(h.poll cmd.cid).matched_iff]
  cases hfirst : s.posted[s.consumed.length]? with
  | none =>
      rw [hfirst, Option.map_none] at hnext
      rw [poll_none hnext]
      exact iff_of_true hmatched.own fun cqe hcqe => by rw [hnext] at hcqe; cases hcqe
  | some x =>
      obtain ⟨m, cqe⟩ := x
      rw [hfirst, Option.map_some] at hnext
      have hm := h.completion.posted _ (List.mem_of_getElem? hfirst)
      have hout : s.outstanding = m :: (s.consume kind n cmd.cid cqe).outstanding :=
        consume_outstanding hfirst
      have hmem : m ∈ s.outstanding := hout ▸ List.mem_cons_self
      rw [poll_some hnext, consume]
      by_cases hsame : cqe.cid = cmd.cid
      · rw [if_pos hsame]
        have howner : n ∉ s.retired ↔ m = n := by
          rw [h.retired_iff hn]
          refine ⟨fun hn' => h.cid_inj hmem hn' ?_, fun heq => heq ▸ hmem⟩
          rw [hm, hcid, hsame]
        have hfst : (s.posted.map Prod.fst)[s.consumed.length]? = some m := by
          rw [List.getElem?_map, hfirst]
          rfl
        constructor
        · intro hown cqe' hcqe' _
          have hlast := hown _ List.mem_cons_self
          rw [hfst, Option.some_inj] at hlast
          exact howner.mpr hlast
        · intro hpolls x hx
          obtain rfl | hx := List.mem_cons.mp hx
          · rw [hfst, howner.mp (hpolls cqe hnext (by rw [hcid, hsame]))]
          · exact hmatched.own x hx
      · rw [if_neg hsame]
        refine iff_of_true hmatched.own fun cqe' hcqe' hcid' => ?_
        rw [hnext, Option.some_inj] at hcqe'
        rw [hcid, Option.some_inj, ← hcqe'] at hcid'
        exact absurd hcid'.symm hsame

theorem Inv.step_matched_iff (h : Inv kind s) (hmatched : Matched s) {a : NvmeAction}
    (hs : NvmeStep kind s a t) : Matched t ↔ PollsOwn s a := by
  have ht := h.step hs
  cases hs with
  | @send cmd =>
      refine iff_of_true (ht.matched_iff.mpr ?_) trivial
      exact hmatched.own
  | notify => exact iff_of_true (ht.matched_iff.mpr hmatched.own) trivial
  | fetch hpending => exact iff_of_true (ht.matched_iff.mpr hmatched.own) trivial
  | @complete n cmd dw0 dw1 sqId status hmem =>
      refine iff_of_true (ht.matched_iff.mpr fun x hx => ?_) trivial
      have hold := hmatched.own x hx
      have hlt := (List.getElem?_eq_some_iff.mp hold).1
      change ((s.posted ++ [_]).map Prod.fst)[x.2]? = some x.1
      rw [List.map_append, List.getElem?_append_left hlt]
      exact hold
  | poll hcmd => exact h.poll_matched_iff hmatched hcmd

theorem Inv.send_ringRight (h : Inv kind s) (cmd : NvmeCommand) :
    RingRight kind s (.send cmd) := by
  intro hsent k hfetched hk
  rw [kind.sendCmd_eq] at hsent
  obtain ⟨cid, hcid⟩ := Option.isSome_iff_exists.mp hsent
  have hcount := (NvmeQueue.sendCmd_some hcid).1
  have hunfetched := h.unfetched_le
  rw [h.submission.sqTail]
  exact (Ring.mod_ne hk (by omega)).symm

-- The controller sees as many commands as there are to be fetched, short of a
-- whole ring of them.
theorem Inv.notify_pending (h : Inv kind s) :
    (s.notify kind).pending kind =
      (List.range ((s.accepted.length - s.fetched) % kind.size)).map fun j =>
        s.queue.sq ((s.fetched + j) % kind.size) := by
  rw [NvmeState.notify, kind.notifyDevice_eq]
  change (List.range ((s.queue.sqTail + kind.size - s.sqHead) % kind.size)).map
    (fun j => s.queue.sq ((s.sqHead + j) % kind.size)) = _
  rw [h.submission.sqTail, h.submission.sqHead,
    Ring.distance_mod kind.size_bounds.1 h.submission.sq.le]
  simp only [Nat.mod_add_mod]

theorem Inv.notify_ringRight_iff (h : Inv kind s) :
    RingRight kind s .notify ↔ NotFull kind s .notify := by
  have hroom := h.submission.sq.room
  simp only [RingRight, NotFull, h.notify_pending, h.submission.sq.drop_eq]
  constructor
  · intro hsame
    by_contra hfull
    have heq : s.accepted.length - s.fetched = kind.size := by omega
    have hlen := congrArg List.length hsame
    simp only [heq, Nat.mod_self, List.length_map, List.length_range] at hlen
    exact absurd hlen (Nat.ne_of_lt kind.size_bounds.1)
  · intro hlt
    rw [Nat.mod_eq_of_lt hlt]

theorem Inv.ringRight_iff (h : Inv kind s) (a : NvmeAction) :
    RingRight kind s a ↔ NotFull kind s a := by
  cases a with
  | send cmd => exact iff_of_true (h.send_ringRight cmd) trivial
  | notify => exact h.notify_ringRight_iff
  | fetch | complete _ _ _ _ _ _ | poll _ => exact Iff.rfl

end Steps

variable {kind : QueueKind} {past : List (NvmeState × NvmeAction)} {s : NvmeState}

-- Throughout a run completions are matched with their commands exactly when no
-- poll meets its identifier after its command has been retired.
theorem completions_matched_iff (kind : QueueKind)
    (h : Trace (NvmeStep kind) setup past s) :
    Trace.Always Matched past s ↔ Trace.Admits PollsOwn past :=
  Trace.always_iff_admits (I := Inv kind) (setup_inv kind)
    ((setup_inv kind).matched_iff.mpr fun _ hx => nomatch hx)
    (fun _ _ _ hinv _ hs _ => hinv.step hs)
    (fun _ _ _ hinv hmatched hs => hinv.step_matched_iff hmatched hs) h

-- The steps as a function.
def next (kind : QueueKind) (s : NvmeState) : NvmeAction → Except Unit NvmeState
  | .send cmd => .ok (s.send kind cmd)
  | .notify => .ok (s.notify kind)
  | .fetch => if s.sqHead = s.queue.sqDb then .error () else .ok (s.fetch kind)
  | .complete n cmd dw0 dw1 sqId status =>
      if (n, cmd) ∈ s.inProgress then .ok (s.complete kind n cmd dw0 dw1 sqId status)
      else .error ()
  | .poll n =>
      match s.accepted[n]? with
      | none => .error ()
      | some cmd => .ok (s.poll kind n cmd.cid)

theorem next_step {t : NvmeState} {a : NvmeAction} (h : s.next kind a = .ok t) :
    NvmeStep kind s a t := by
  cases a with
  | send cmd =>
      cases h
      exact .send
  | notify =>
      cases h
      exact .notify
  | fetch =>
      by_cases hempty : s.sqHead = s.queue.sqDb
      · rw [next, if_pos hempty] at h
        cases h
      · rw [next, if_neg hempty] at h
        cases h
        exact .fetch hempty
  | complete n cmd dw0 dw1 sqId status =>
      by_cases hmem : (n, cmd) ∈ s.inProgress
      · rw [next, if_pos hmem] at h
        cases h
        exact .complete hmem
      · rw [next, if_neg hmem] at h
        cases h
  | poll n =>
      cases hcmd : s.accepted[n]? with
      | none => simp [next, hcmd] at h
      | some cmd =>
          obtain rfl : s.poll kind n cmd.cid = t := by simpa [next, hcmd] using h
          exact .poll hcmd

theorem run_next {actions : List NvmeAction} {t : NvmeState}
    (hrun : actions.foldlM (next kind) setup = .ok t) :
    ∃ past, Trace (NvmeStep kind) setup past t ∧ past.map Prod.snd = actions := by
  obtain ⟨later, hlater, hactions⟩ := Trace.of_foldlM (fun _ _ _ => next_step) actions .nil hrun
  exact ⟨later, hlater, hactions⟩

def identify : NvmeCommand := ⟨6, 0, 0, 0, 0, 0x200000, 0, 1, 0, 0, 0, 0, 0⟩

-- A command is sent, fetched, completed and polled for.
theorem completions_matched_iff_identify :
    ∃ past s, Trace (NvmeStep .admin) setup past s ∧ s.returned = [(0, 0)] ∧
      Trace.Always Matched past s := by
  have hsent := Trace.nil.snoc (show NvmeStep .admin setup (.send identify) _ from .send)
  have hrung := hsent.snoc (show NvmeStep .admin _ .notify _ from .notify)
  have hfetched := hrung.snoc (show NvmeStep .admin _ .fetch _ from .fetch (by decide))
  have hcompleted := hfetched.snoc (show NvmeStep .admin _
    (.complete 0 (identify.withCid 0) 0 0 0 0) _ from .complete (by decide))
  have hpolled := hcompleted.snoc (show NvmeStep .admin _ (.poll 0) _ from
    .poll (show _ = some (identify.withCid 0) by decide))
  refine ⟨_, _, hpolled, by decide, (completions_matched_iff .admin hpolled).mpr ?_⟩
  simp only [Trace.admits_snoc]
  refine ⟨⟨⟨⟨⟨Trace.admits_nil, trivial⟩, trivial⟩, trivial⟩, trivial⟩, fun _ _ _ => ?_⟩
  decide

def sends (n : Nat) : List NvmeAction := List.replicate n (.send identify)

-- Both of two commands are completed, and the poll for the second consumes both
-- completions. By the time of the poll for the first its identifier belongs to
-- command 64.
def reusedCid : List NvmeAction :=
  sends 2 ++ [.notify, .fetch, .fetch, .complete 0 (identify.withCid 0) 0 0 0 0,
    .complete 1 (identify.withCid 1) 0 0 0 0, .poll 1, .poll 1] ++ sends 63 ++ .notify ::
    List.replicate 63 .fetch ++ [.complete 64 (identify.withCid 0) 0 0 0 0, .poll 0]

def Misled (s : NvmeState) : Prop :=
  ∃ x ∈ s.returned, (s.posted.map Prod.fst)[x.2]? ≠ some x.1

instance (s : NvmeState) : Decidable (Misled s) := by
  unfold Misled
  infer_instance

-- What holds of the result of a run, if there is one.
def Ends (P : NvmeState → Prop) : Except Unit NvmeState → Prop
  | .ok s => P s
  | .error _ => False

instance {P : NvmeState → Prop} [DecidablePred P] : DecidablePred (Ends P)
  | .ok s => inferInstanceAs (Decidable (P s))
  | .error _ => inferInstanceAs (Decidable False)

theorem Ends.run {P : NvmeState → Prop} {actions : List NvmeAction}
    (h : Ends P (actions.foldlM (next kind) setup)) :
    ∃ past s, Trace (NvmeStep kind) setup past s ∧ P s := by
  cases hrun : actions.foldlM (next kind) setup with
  | error e =>
      rw [hrun] at h
      exact h.elim
  | ok s =>
      rw [hrun] at h
      obtain ⟨past, hpast, -⟩ := run_next hrun
      exact ⟨past, s, hpast, h⟩

theorem reusedCid_misled : Ends Misled (reusedCid.foldlM (next .io) setup) := by
  decide +kernel

theorem completions_matched_fails :
    ¬ ∀ (kind : QueueKind) (past : List (NvmeState × NvmeAction)) (s : NvmeState),
      Trace (NvmeStep kind) setup past s → Trace.Always Matched past s := by
  intro hall
  obtain ⟨past, s, hrun, x, hx, hne⟩ := reusedCid_misled.run
  exact hne ((hall .io past s hrun).2.own x hx)

-- The submission ring is right throughout a run exactly when no doorbell is
-- written for a full one.
theorem submission_ring_iff (kind : QueueKind) (h : Trace (NvmeStep kind) setup past s) :
    Trace.Admits (RingRight kind) past ↔ Trace.Admits (NotFull kind) past := by
  have hany : Trace.Admits (fun (_ : NvmeState) (_ : NvmeAction) => True) past :=
    fun _ _ => trivial
  have hinv := h.always_of_admits (I := Inv kind) (P := Inv kind) (setup_inv kind)
    (fun _ _ _ hi _ hs => hi.step hs) (fun _ hi => hi) hany
  constructor
  · exact fun hright x hx => ((hinv.1 x hx).ringRight_iff x.2).mp (hright x hx)
  · exact fun hfull x hx => ((hinv.1 x hx).ringRight_iff x.2).mpr (hfull x hx)

-- A command is sent and the doorbell written.
theorem submission_ring_iff_identify :
    ∃ past s, Trace (NvmeStep .io) setup past s ∧
      past.map Prod.snd = [.send identify, .notify] ∧ Trace.Admits (RingRight .io) past := by
  have hsent := Trace.nil.snoc (show NvmeStep .io setup (.send identify) _ from .send)
  have hrung := hsent.snoc (show NvmeStep .io _ .notify _ from .notify)
  refine ⟨_, _, hrung, rfl, (submission_ring_iff .io hrung).mpr ?_⟩
  simp only [Trace.admits_snoc]
  refine ⟨⟨Trace.admits_nil, trivial⟩, ?_⟩
  exact (by decide : 1 - 0 < 64)

-- The doorbell is written once for 64 commands: the controller sees none.
theorem submission_ring_fails :
    ¬ ∀ (kind : QueueKind) (past : List (NvmeState × NvmeAction)) (s : NvmeState),
      Trace (NvmeStep kind) setup past s → Trace.Admits (RingRight kind) past := by
  intro hall
  have hfull : Ends (fun s => (s.notify .io).pending .io ≠ s.accepted.drop s.fetched)
      ((sends 64).foldlM (next .io) setup) := by decide +kernel
  obtain ⟨past, s, hrun, hne⟩ := hfull.run
  exact hne (Trace.admits_snoc.mp (hall .io _ _ (hrun.snoc .notify))).2

end NvmeState

end AosKernel.Io
