import AosKernel.Smp.ReadyQueue

namespace AosKernel.Smp

open Verif Mm

-- The finished list ends and holds exactly the DEAD threads that have not been
-- freed, its end pointer is right, and the ready list keeps away from it.
def FinishedIntact (s : Tasks) : Prop :=
  ∃ fin, Links s.machine.next s.machine.core.finishedList fin none ∧ fin.Nodup ∧
    s.machine.core.finishedListEnd = fin.getLast? ∧
    (∀ t, t ∈ fin ↔ t ∈ s.known ∧ (s.machine.threads t).status = .dead ∧ t ∉ s.machine.freed) ∧
    ∀ ready rest, Links s.machine.next s.machine.core.readyList ready rest →
      ∀ t ∈ ready, t ∉ fin

-- A push comes while ready_list_end is to be trusted and at most one thread
-- is finished: the thread that is used again keeps its `next`.
def PushClean (s : Tasks) : TaskCall → Prop
  | .push entry arg grant => EndPending s (.push entry arg grant) ∧
      ∀ t, s.machine.core.finishedList = some t → s.machine.next t = none
  | _ => True

-- What such pushes and the other steps keep: no list goes on into the other,
-- and every thread is somewhere.
structure FinishedInv (s : Tasks) (pending fin : List ThreadRef) : Prop where
  queue : QueueInv s pending fin none
  all : ∀ t ∈ s.known,
    t ∈ s.machine.core.curThread :: s.machine.core.idleThread :: (pending ++ fin)
  freed : s.machine.freed = []

section Inv

variable {s t : Tasks} {pending fin : List ThreadRef}

theorem FinishedInv.intact (h : FinishedInv s pending fin) : FinishedIntact s := by
  obtain ⟨hpnodup, hfnodup, hdisjoint⟩ := List.nodup_append'.mp h.queue.distinct
  refine ⟨fin, h.queue.finished, hfnodup, h.queue.finishedEnd, fun t => ⟨fun ht => ?_, ?_⟩, ?_⟩
  · refine ⟨h.queue.known t ?_, (h.queue.isDead t ht).1, by simp [h.freed]⟩
    simp only [List.mem_cons, List.mem_append]
    exact .inr (.inr (.inr ht))
  · rintro ⟨hknown, hdead, -⟩
    -- a DEAD thread is neither running nor ready
    have hidle : t ≠ s.machine.core.idleThread := by
      rintro rfl
      rw [h.queue.idleRunning] at hdead
      cases hdead
    have hcur : t ≠ s.machine.core.curThread := by
      rintro rfl
      rw [(h.queue.curRunning hidle).1] at hdead
      cases hdead
    have hpending : t ∉ pending := fun ht => by
      rw [(h.queue.isReady t ht).1] at hdead
      cases hdead
    simpa [hcur, hidle, hpending] using h.all t hknown
  · intro ready rest hready t ht hfin
    obtain ⟨more, hsplit, -⟩ := Links.split hready h.queue.ready
    exact hdisjoint (hsplit ▸ List.mem_append_left more ht) hfin

theorem FinishedInv.push {fin' : List ThreadRef} {new : ThreadRef} {m m' : Machine}
    {arg : BitVec 64} (h : FinishedInv s pending fin) (hc : Chosen s fin new fin' m)
    (hm : m' = linkReady (m.setThread new fun t => { t with arg := arg, status := .ready }) new)
    (hend : s.machine.core.readyListEnd = pending.getLast?)
    (hone : ∀ t, s.machine.core.finishedList = some t → s.machine.next t = none) :
    FinishedInv ⟨m', new :: s.known, s.pushed ++ [new], s.dispatched⟩ (pending ++ [new]) fin' := by
  have hqueue := hc.push_inv h.queue hm hend
  have hfin' : fin' = [] := by
    rcases hc.origin with ⟨-, hnil, -⟩ | rfl
    · exact hnil
    · obtain ⟨hhead, hrest⟩ := h.queue.finished
      rw [hone new hhead] at hrest
      cases fin' with
      | nil => rfl
      | cons t rest => cases hrest.1
  have hnone : m.next new = none := by
    rw [hc.newNext, hfin']
    rfl
  rw [hnone] at hqueue
  have hcore : m'.core.curThread = s.machine.core.curThread ∧
      m'.core.idleThread = s.machine.core.idleThread := by
    rw [hm, linkReady_core, setThread_core, hc.core]
    exact ⟨rfl, rfl⟩
  refine ⟨hqueue, fun t ht => ?_, ?_⟩
  · simp only [hcore.1, hcore.2, List.mem_cons, List.mem_append, List.not_mem_nil, or_false]
    rcases List.mem_cons.mp ht with rfl | ht
    · exact .inr (.inr (.inl (.inr rfl)))
    · have hold := h.all t ht
      simp only [List.mem_cons, List.mem_append] at hold
      rcases hc.origin with ⟨rfl, -, -⟩ | rfl
      · simp only [List.not_mem_nil, or_false] at hold
        tauto
      · simp only [List.mem_cons] at hold
        tauto
  · rw [hm]
    simp only [linkReady, setThread_freed, setChecked_freed, hc.freed, h.freed]

theorem apDispatch_freed {m m' : Machine} {turns : Nat} {next : Option ThreadRef}
    (h : apDispatch turns m = .ok (next, m')) : m'.freed = m.freed := by
  unfold apDispatch at h
  cases hfirst : firstReady m turns m.core.readyList with
  | error e =>
      rw [hfirst] at h
      cases h
  | ok found =>
      rw [hfirst] at h
      cases found with
      | none =>
          cases h
          rfl
      | some t =>
          simp only [bind, Except.bind, pure, Except.pure, Except.ok.injEq, Prod.mk.injEq] at h
          obtain ⟨-, rfl⟩ := h
          rw [threadContextSwitch_freed]
          split <;> rfl

theorem FinishedInv.step (h : FinishedInv s pending fin) {call : TaskCall}
    (hstep : TaskStep s call t) (hok : PushClean s call) :
    ∃ pending fin, FinishedInv t pending fin := by
  cases hstep with
  | push hthread hstack hfresh hpush =>
      obtain ⟨fin', m₁, hchosen, hm⟩ := smpPushTask_chosen h.queue hthread hstack hfresh hpush
      exact ⟨_, _, h.push hchosen hm (h.queue.end_eq hok.1) hok.2⟩
  | dispatch hidle hdispatch =>
      cases pending with
      | nil =>
          obtain ⟨rfl, rfl⟩ := h.queue.dispatch_none hdispatch
          refine ⟨[], fin, h.queue.congr rfl (fun x => ⟨_, rfl⟩) rfl rfl ?_, h.all, h.freed⟩
          simp
      | cons p pending =>
          refine ⟨pending, fin, h.queue.dispatch hidle hdispatch, fun x hx => ?_, ?_⟩
          · obtain ⟨hpready, -⟩ := h.queue.isReady p List.mem_cons_self
            have hcore := (apDispatch_head h.queue.ready.1 hpready hdispatch).2.core
            have hold := h.all x hx
            simp only [hcore, hidle, List.mem_cons, List.mem_append] at hold ⊢
            tauto
          · exact (apDispatch_freed hdispatch).trans h.freed
  | yield =>
      by_cases hcur : s.machine.core.curThread = s.machine.core.idleThread
      · have hsame : smpYield s.machine = s.machine := by simp only [smpYield, hcur, if_true]
        rw [hsame]
        exact ⟨pending, fin, h⟩
      · refine ⟨pending, _, h.queue.yield hcur, fun x hx => ?_, ?_⟩
        · have hold := h.all x hx
          simp only [(smpYield_spec hcur).1, List.mem_cons, List.mem_append, List.not_mem_nil,
            or_false] at hold ⊢
          tauto
        · simp only [smpYield, hcur, if_false, threadContextSwitch_freed, setThread_freed,
            setChecked_freed]
          exact h.freed
  | work => exact ⟨pending, fin, h.queue.congr rfl (fun x => ⟨_, rfl⟩) rfl rfl rfl, h.all, h.freed⟩

end Inv

instance (s : Tasks) (call : TaskCall) : Decidable (PushClean s call) := by
  cases call with
  | push entry arg grant =>
      exact inferInstanceAs (Decidable ((∀ t ∈ s.machine.core.readyListEnd,
        (s.machine.threads t).status = .ready) ∧
          ∀ t ∈ s.machine.core.finishedList, s.machine.next t = none))
  | dispatch | yield | work => exact inferInstanceAs (Decidable True)

end AosKernel.Smp
