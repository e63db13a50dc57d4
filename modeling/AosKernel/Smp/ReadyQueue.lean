import Mathlib.Data.List.Chain
import AosKernel.Lib.Links
import AosKernel.Lib.Trace
import AosKernel.Smp.StartFrame

namespace AosKernel.Smp

open Verif Bytes Mm

def Machine.next (m : Machine) (t : ThreadRef) : Option ThreadRef := (m.threads t).next

-- A core with its history: the addresses its thread_state structures have had,
-- the threads that tasks were pushed to, and those that were dispatched,
-- oldest first.
structure Tasks where
  machine : Machine
  known : List ThreadRef
  pushed : List ThreadRef
  dispatched : List ThreadRef

inductive TaskCall
  | push (entry arg : BitVec 64) (grant : Grant)
  | dispatch
  | yield
  | work (cpu : Cpu) (memory : Bytes)

-- The steps that interleave. Allocations succeed and give structures that are
-- not in use; the idle loop runs only while the idle thread does; whatever
-- thread runs may compute on registers and memory.
inductive TaskStep : Tasks → TaskCall → Tasks → Prop
  | push {s entry arg grant turns new m} : grant.thread ≠ 0 → grant.stack ≠ 0 →
      grant.thread ∉ s.known → smpPushTask entry arg turns grant s.machine = .ok (new, m) →
      TaskStep s (.push entry arg grant) ⟨m, new :: s.known, s.pushed ++ [new], s.dispatched⟩
  | dispatch {s turns next m} : s.machine.core.curThread = s.machine.core.idleThread →
      apDispatch turns s.machine = .ok (next, m) →
      TaskStep s .dispatch ⟨m, s.known, s.pushed, s.dispatched ++ next.toList⟩
  | yield {s} : TaskStep s .yield { s with machine := smpYield s.machine }
  | work {s cpu memory} :
      TaskStep s (.work cpu memory) { s with machine := { s.machine with cpu, memory } }

-- A core that smp_init has set up and that has come online.
structure Started (s : Tasks) : Prop where
  core : ∃ idle, s.machine.core = ⟨idle, idle, none, none, none, none⟩ ∧
    (s.machine.threads idle).status = .running ∧ s.known = [idle]
  pushed : s.pushed = []
  dispatched : s.dispatched = []

-- The ready list ends, and its READY threads are, in order, those of the tasks
-- that were pushed and are not yet dispatched.
def TasksQueued (s : Tasks) : Prop :=
  ∃ list, Links s.machine.next s.machine.core.readyList list none ∧
    s.pushed = s.dispatched ++ list.filter fun t => (s.machine.threads t).status = .ready

-- ready_list_end does not point to a thread that was dispatched before.
def EndPending (s : Tasks) : TaskCall → Prop
  | .push _ _ _ => ∀ t, s.machine.core.readyListEnd = some t →
      (s.machine.threads t).status = .ready
  | _ => True

-- What the steps keep: `pending` are the READY threads in order and `fin` the
-- finished ones. The last pending thread may link on to the finished list.
structure QueueInv (s : Tasks) (pending fin : List ThreadRef) (tail : Option ThreadRef) : Prop where
  ready : Links s.machine.next s.machine.core.readyList pending tail
  tail : tail = none ∨ tail = s.machine.core.finishedList
  finished : Links s.machine.next s.machine.core.finishedList fin none
  finishedEnd : s.machine.core.finishedListEnd = fin.getLast?
  headPrev : ∀ t, fin.head? = some t → (s.machine.threads t).prev = none
  isReady : ∀ t ∈ pending, (s.machine.threads t).status = .ready ∧
    1024 ≤ (s.machine.threads t).stackSize
  isDead : ∀ t ∈ fin, (s.machine.threads t).status = .dead ∧
    1024 ≤ (s.machine.threads t).stackSize
  curRunning : s.machine.core.curThread ≠ s.machine.core.idleThread →
    (s.machine.threads s.machine.core.curThread).status = .running ∧
      1024 ≤ (s.machine.threads s.machine.core.curThread).stackSize
  idleRunning : (s.machine.threads s.machine.core.idleThread).status = .running
  distinct : (pending ++ fin).Nodup
  known : ∀ t ∈ s.machine.core.curThread :: s.machine.core.idleThread :: (pending ++ fin),
    t ∈ s.known
  linked : pending.IsChain fun a b => (s.machine.threads b).prev = some a
  lastEnd : ∀ t, pending.getLast? = some t → s.machine.core.readyListEnd = some t
  staleEnd : pending = [] → ∀ t, s.machine.core.readyListEnd = some t → t ∈ fin
  stalePrev : ∀ t, pending = [t] → ∀ q, (s.machine.threads t).prev = some q →
    q ∈ fin ∨ (q = s.machine.core.curThread ∧ q ≠ s.machine.core.idleThread)
  history : s.pushed = s.dispatched ++ pending

section Inv

variable {s t : Tasks} {pending fin : List ThreadRef} {tail : Option ThreadRef}

theorem Started.inv (h : Started s) : QueueInv s [] [] none := by
  obtain ⟨idle, hcore, hrunning, hknown⟩ := h.core
  constructor
  all_goals simp [hcore, hrunning, hknown, h.pushed, h.dispatched]

-- The invariant is about links, statuses, stack sizes and the core only.
theorem QueueInv.congr (h : QueueInv s pending fin tail)
    (hcore : t.machine.core = s.machine.core)
    (hthreads : ∀ x, ∃ rsp, t.machine.threads x = { s.machine.threads x with rsp := rsp })
    (hknown : t.known = s.known) (hpushed : t.pushed = s.pushed)
    (hdispatched : t.dispatched = s.dispatched) : QueueInv t pending fin tail := by
  have hnext (x : ThreadRef) : t.machine.next x = s.machine.next x := by
    obtain ⟨rsp, hx⟩ := hthreads x
    rw [Machine.next, hx, Machine.next]
  have hprev (x : ThreadRef) : (t.machine.threads x).prev = (s.machine.threads x).prev := by
    obtain ⟨rsp, hx⟩ := hthreads x
    rw [hx]
  have hstatus (x : ThreadRef) : (t.machine.threads x).status = (s.machine.threads x).status := by
    obtain ⟨rsp, hx⟩ := hthreads x
    rw [hx]
  have hsize (x : ThreadRef) :
      (t.machine.threads x).stackSize = (s.machine.threads x).stackSize := by
    obtain ⟨rsp, hx⟩ := hthreads x
    rw [hx]
  have hlinks : t.machine.next = s.machine.next := funext hnext
  constructor
  all_goals try simp only [hcore, hlinks, hprev, hstatus, hsize, hknown, hpushed, hdispatched]
  exacts [h.ready, h.tail, h.finished, h.finishedEnd, h.headPrev, h.isReady, h.isDead,
    h.curRunning, h.idleRunning, h.distinct, h.known, h.linked, h.lastEnd, h.staleEnd,
    h.stalePrev, h.history]

-- ready_list_end is the last pending thread where it is to be trusted.
theorem QueueInv.end_eq (h : QueueInv s pending fin tail)
    (hend : ∀ t, s.machine.core.readyListEnd = some t → (s.machine.threads t).status = .ready) :
    s.machine.core.readyListEnd = pending.getLast? := by
  cases hlast : pending.getLast? with
  | some t => exact h.lastEnd t hlast
  | none =>
      cases hcase : s.machine.core.readyListEnd with
      | none => rfl
      | some t =>
          have hdead := (h.isDead t (h.staleEnd (List.getLast?_eq_none_iff.mp hlast) t hcase)).1
          rw [hend t hcase] at hdead
          cases hdead

theorem firstReady_none {m : Machine} {turns : Nat} {p found : Option ThreadRef}
    {list : List ThreadRef} (hlinks : Links m.next p list none)
    (hnot : ∀ t ∈ list, (m.threads t).status ≠ .ready) (h : firstReady m turns p = .ok found) :
    found = none := by
  induction turns generalizing p list with
  | zero =>
      cases p with
      | none => cases h; rfl
      | some t => cases h
  | succ turns ih =>
      cases p with
      | none => cases h; rfl
      | some t =>
          cases list with
          | nil => cases hlinks
          | cons a rest =>
              obtain ⟨⟨⟩, hrest⟩ := hlinks
              rw [firstReady, if_neg (hnot t List.mem_cons_self)] at h
              exact ih hrest (fun b hb => hnot b (List.mem_cons_of_mem _ hb)) h

-- With nothing pending the idle loop finds no thread.
theorem QueueInv.dispatch_none (h : QueueInv s [] fin tail) {turns : Nat}
    {next : Option ThreadRef} {m : Machine} (hstep : apDispatch turns s.machine = .ok (next, m)) :
    next = none ∧ m = s.machine := by
  unfold apDispatch at hstep
  cases hfirst : firstReady s.machine turns s.machine.core.readyList with
  | error e =>
      rw [hfirst] at hstep
      cases hstep
  | ok found =>
      have hnone : found = none := by
        rcases h.tail with htail | htail
        · exact @firstReady_none _ _ _ _ [] (h.ready.trans htail) (fun _ h => nomatch h) hfirst
        · refine @firstReady_none _ _ _ _ fin ?_ (fun t ht => ?_) hfirst
          · rw [show s.machine.core.readyList = s.machine.core.finishedList from
              Eq.trans h.ready htail]
            exact h.finished
          · rw [(h.isDead t ht).1]
            nofun
      subst hnone
      rw [hfirst] at hstep
      cases hstep
      exact ⟨rfl, rfl⟩

-- A dispatch takes the head `t` of the list and runs it.
structure RunsHead (m m' : Machine) (t : ThreadRef) : Prop where
  core : m'.core = { m.core with
    readyList := m.next t
    readyListEnd :=
      if m.core.readyListEnd = some t then (m.threads t).prev else m.core.readyListEnd
    curThread := t }
  next : m'.next = m.next
  prev : ∀ x, (m'.threads x).prev = (m.threads x).prev
  stackSize : ∀ x, (m'.threads x).stackSize = (m.threads x).stackSize
  running : (m'.threads t).status = .running
  status : ∀ x, x ≠ t → (m'.threads x).status = (m.threads x).status

theorem RunsHead.of_threads {m m' : Machine} {t : ThreadRef}
    (hcore : m'.core = { m.core with
      readyList := m.next t
      readyListEnd :=
        if m.core.readyListEnd = some t then (m.threads t).prev else m.core.readyListEnd
      curThread := t })
    (hthreads : ∀ x, ∃ rsp, m'.threads x = { m.threads x with
      rsp := rsp, status := if x = t then .running else (m.threads x).status }) :
    RunsHead m m' t := by
  refine ⟨hcore, funext fun x => ?_, fun x => ?_, fun x => ?_, ?_, fun x hx => ?_⟩
  · obtain ⟨rsp, heq⟩ := hthreads x
    rw [Machine.next, heq, Machine.next]
  · obtain ⟨rsp, heq⟩ := hthreads x
    rw [heq]
  · obtain ⟨rsp, heq⟩ := hthreads x
    rw [heq]
  · obtain ⟨rsp, heq⟩ := hthreads t
    rw [heq]
    exact if_pos rfl
  · obtain ⟨rsp, heq⟩ := hthreads x
    rw [heq]
    exact if_neg hx

theorem apDispatch_head {m m' : Machine} {turns : Nat} {t : ThreadRef} {next : Option ThreadRef}
    (hhead : m.core.readyList = some t) (hready : (m.threads t).status = .ready)
    (h : apDispatch turns m = .ok (next, m')) : next = some t ∧ RunsHead m m' t := by
  unfold apDispatch at h
  cases turns with
  | zero =>
      rw [hhead] at h
      cases h
  | succ turns =>
      have hfirst : firstReady m (turns + 1) m.core.readyList = .ok (some t) := by
        rw [hhead, firstReady, if_pos hready]
        rfl
      rw [hfirst] at h
      simp only [bind, Except.bind, pure, Except.pure, Except.ok.injEq, Prod.mk.injEq] at h
      obtain ⟨rfl, rfl⟩ := h
      refine ⟨rfl, .of_threads ?_ fun x => ?_⟩
      · rw [threadContextSwitch_core]
        simp only [Machine.next]
        split <;> rfl
      · obtain ⟨rsp, hx⟩ := threadContextSwitch_threads _ _ _ x
        refine ⟨rsp, hx.trans ?_⟩
        simp only [setThread_threads]
        split
        · rename_i hxt
          subst hxt
          split <;> rfl
        · split <;> rfl

theorem QueueInv.dispatch {p : ThreadRef} (h : QueueInv s (p :: pending) fin tail) {turns : Nat}
    {next : Option ThreadRef} {m : Machine}
    (hidle : s.machine.core.curThread = s.machine.core.idleThread)
    (hstep : apDispatch turns s.machine = .ok (next, m)) :
    QueueInv ⟨m, s.known, s.pushed, s.dispatched ++ next.toList⟩ pending fin tail := by
  obtain ⟨hpready, hpsize⟩ := h.isReady p List.mem_cons_self
  obtain ⟨rfl, hruns⟩ := apDispatch_head h.ready.1 hpready hstep
  have hcore := hruns.core
  have hpidle : p ≠ s.machine.core.idleThread := by
    rintro rfl
    rw [h.idleRunning] at hpready
    cases hpready
  have hdistinct := List.nodup_cons.mp h.distinct
  have hpout (x : ThreadRef) (hx : x ∈ pending ++ fin) : x ≠ p := by
    rintro rfl
    exact hdistinct.1 hx
  constructor
  case ready =>
    simp only [hcore, hruns.next]
    exact h.ready.2
  case tail => simpa only [hcore] using h.tail
  case finished => simpa only [hcore, hruns.next] using h.finished
  case finishedEnd => simpa only [hcore] using h.finishedEnd
  case headPrev => simpa only [hruns.prev] using h.headPrev
  case isReady =>
    intro x hx
    rw [hruns.status x (hpout x (List.mem_append_left _ hx)), hruns.stackSize]
    exact h.isReady x (List.mem_cons_of_mem _ hx)
  case isDead =>
    intro x hx
    rw [hruns.status x (hpout x (List.mem_append_right _ hx)), hruns.stackSize]
    exact h.isDead x hx
  case curRunning =>
    simp only [hcore, hruns.stackSize]
    exact fun _ => ⟨hruns.running, hpsize⟩
  case idleRunning =>
    simp only [hcore]
    rw [hruns.status _ hpidle.symm]
    exact h.idleRunning
  case distinct => exact hdistinct.2
  case known =>
    intro x hx
    simp only [hcore, List.mem_cons] at hx
    refine h.known x ?_
    simp only [List.cons_append, List.mem_cons]
    tauto
  case linked =>
    simp only [hruns.prev]
    exact h.linked.tail
  case lastEnd =>
    intro x hx
    have hlast : (p :: pending).getLast? = some x := by
      rw [List.getLast?_cons, hx]
      rfl
    have hend := h.lastEnd x hlast
    have hne : x ≠ p := hpout x (List.mem_append_left _ (List.mem_of_getLast? hx))
    simp only [hcore, hend, Option.some.injEq, hne, if_false]
  case staleEnd =>
    rintro rfl x hx
    simp only [hcore, h.lastEnd p rfl, if_true] at hx
    rcases h.stalePrev p rfl x hx with hfin | ⟨rfl, hne⟩
    · exact hfin
    · exact absurd hidle hne
  case stalePrev =>
    rintro x rfl q hq
    have hback := (List.isChain_cons_cons.mp h.linked).1
    rw [hruns.prev, hback, Option.some.injEq] at hq
    subst hq
    simp only [hcore, true_and]
    exact .inr hpidle
  case history =>
    simp only [Option.toList_some, List.append_assoc, List.singleton_append]
    exact h.history

-- What a yield makes of the core.
theorem smpYield_spec {m : Machine} (h : m.core.curThread ≠ m.core.idleThread) :
    (smpYield m).core = { m.core with
      finishedListEnd := some m.core.curThread
      finishedList := m.core.finishedList.or (some m.core.curThread)
      curThread := m.core.idleThread } ∧
    ∀ x, ∃ rsp, (smpYield m).threads x = { m.threads x with
      rsp := rsp
      status := if x = m.core.curThread then .dead else (m.threads x).status
      next := if m.core.finishedListEnd = some x then some m.core.curThread
        else if x = m.core.curThread then none else m.next x
      prev := if x = m.core.curThread then m.core.finishedListEnd else (m.threads x).prev } := by
  unfold smpYield
  simp only [h, if_false]
  refine ⟨?_, fun x => ?_⟩
  · rw [threadContextSwitch_core]
    simp only [setThread_core, setChecked_core]
  · obtain ⟨rsp, hx⟩ := threadContextSwitch_threads _ _ _ x
    refine ⟨rsp, hx.trans ?_⟩
    simp only [setThread_threads, setThread_core, setChecked_threads, setChecked_core, Machine.next]
    by_cases hcur : x = m.core.curThread
    · subst hcur
      simp only [if_true]
      split <;> rfl
    · simp only [hcur, if_false]
      split <;> rfl

theorem smpYield_next {m : Machine} (h : m.core.curThread ≠ m.core.idleThread) (x : ThreadRef) :
    (smpYield m).next x =
      if m.core.finishedListEnd = some x then some m.core.curThread
      else if x = m.core.curThread then none else m.next x := by
  obtain ⟨rsp, hx⟩ := (smpYield_spec h).2 x
  rw [Machine.next, hx]

-- A thread that does not yield keeps all but its link.
theorem smpYield_other {m : Machine} (h : m.core.curThread ≠ m.core.idleThread) {x : ThreadRef}
    (hx : x ≠ m.core.curThread) :
    ((smpYield m).threads x).prev = (m.threads x).prev ∧
      ((smpYield m).threads x).status = (m.threads x).status ∧
      ((smpYield m).threads x).stackSize = (m.threads x).stackSize := by
  obtain ⟨rsp, heq⟩ := (smpYield_spec h).2 x
  rw [heq]
  exact ⟨if_neg hx, if_neg hx, rfl⟩

theorem smpYield_cur {m : Machine} (h : m.core.curThread ≠ m.core.idleThread) :
    ((smpYield m).threads m.core.curThread).prev = m.core.finishedListEnd ∧
      ((smpYield m).threads m.core.curThread).status = .dead ∧
      ((smpYield m).threads m.core.curThread).stackSize =
        (m.threads m.core.curThread).stackSize := by
  obtain ⟨rsp, heq⟩ := (smpYield_spec h).2 m.core.curThread
  rw [heq]
  exact ⟨if_pos rfl, if_pos rfl, rfl⟩

-- The thread that runs a task is on neither list.
theorem QueueInv.cur_not_mem (h : QueueInv s pending fin tail)
    (hcur : s.machine.core.curThread ≠ s.machine.core.idleThread) {x : ThreadRef}
    (hx : x ∈ pending ++ fin) : x ≠ s.machine.core.curThread := by
  have hrunning := (h.curRunning hcur).1
  rintro rfl
  rcases List.mem_append.mp hx with hx | hx
  · rw [(h.isReady _ hx).1] at hrunning
    cases hrunning
  · rw [(h.isDead _ hx).1] at hrunning
    cases hrunning

theorem QueueInv.finishedEnd_ne (h : QueueInv s pending fin tail) {x : ThreadRef} (hx : x ∉ fin) :
    s.machine.core.finishedListEnd ≠ some x := by
  rw [h.finishedEnd]
  exact fun hlast => hx (List.mem_of_getLast? hlast)

-- The thread that yields is put behind the finished ones.
theorem QueueInv.yield_finished (h : QueueInv s pending fin tail)
    (hcur : s.machine.core.curThread ≠ s.machine.core.idleThread) :
    Links (smpYield s.machine).next (smpYield s.machine).core.finishedList
      (fin ++ [s.machine.core.curThread]) none := by
  have hother (x : ThreadRef) (hx : x ∈ fin) : x ≠ s.machine.core.curThread :=
    h.cur_not_mem hcur (List.mem_append_right _ hx)
  have hnodup : fin.Nodup := (List.nodup_append'.mp h.distinct).2.1
  rw [(smpYield_spec hcur).1]
  refine Links.append (h.finished.leads_on hnodup (fun hnil => ?_) fun x hx => ?_) ⟨rfl, ?_⟩
  · subst hnil
    rw [show s.machine.core.finishedList = none from h.finished]
    rfl
  · rw [smpYield_next hcur, h.finishedEnd, if_neg (hother x hx)]
  · rw [smpYield_next hcur, if_neg (h.finishedEnd_ne fun hf => hother _ hf rfl), if_pos rfl]
    rfl

-- The thread that yields goes to the end of the finished list.
theorem QueueInv.yield (h : QueueInv s pending fin tail)
    (hcur : s.machine.core.curThread ≠ s.machine.core.idleThread) :
    QueueInv { s with machine := smpYield s.machine } pending
      (fin ++ [s.machine.core.curThread]) tail := by
  have hcore := (smpYield_spec hcur).1
  have hcursize := (h.curRunning hcur).2
  have hpout (x : ThreadRef) (hx : x ∈ pending) : x ≠ s.machine.core.curThread :=
    h.cur_not_mem hcur (List.mem_append_left _ hx)
  have hfout (x : ThreadRef) (hx : x ∈ fin) : x ≠ s.machine.core.curThread :=
    h.cur_not_mem hcur (List.mem_append_right _ hx)
  have hdisjoint := (List.nodup_append'.mp h.distinct).2.2
  constructor
  case ready =>
    simp only [hcore]
    refine h.ready.congr fun x hx => ?_
    rw [smpYield_next hcur, if_neg (h.finishedEnd_ne fun hf => hdisjoint hx hf),
      if_neg (hpout x hx)]
  case tail =>
    simp only [hcore]
    rcases h.tail with htail | htail
    · exact .inl htail
    · cases hlist : s.machine.core.finishedList with
      | none => exact .inl (htail.trans hlist)
      | some f => exact .inr (htail.trans hlist)
  case finished => exact h.yield_finished hcur
  case finishedEnd => simp only [hcore, List.getLast?_concat]
  case headPrev =>
    intro x hx
    cases fin with
    | nil =>
        cases hx
        rw [(smpYield_cur hcur).1]
        exact h.finishedEnd
    | cons f fin =>
        cases hx
        rw [(smpYield_other hcur (hfout x List.mem_cons_self)).1]
        exact h.headPrev x rfl
  case isReady =>
    intro x hx
    obtain ⟨-, hstatus, hsize⟩ := smpYield_other hcur (hpout x hx)
    rw [hstatus, hsize]
    exact h.isReady x hx
  case isDead =>
    intro x hx
    rcases List.mem_append.mp hx with hx | hx
    · obtain ⟨-, hstatus, hsize⟩ := smpYield_other hcur (hfout x hx)
      rw [hstatus, hsize]
      exact h.isDead x hx
    · obtain rfl := List.mem_singleton.mp hx
      obtain ⟨-, hstatus, hsize⟩ := smpYield_cur hcur
      exact ⟨hstatus, hsize ▸ hcursize⟩
  case curRunning =>
    simp only [hcore]
    exact fun hne => absurd rfl hne
  case idleRunning =>
    simp only [hcore]
    rw [(smpYield_other hcur hcur.symm).2.1]
    exact h.idleRunning
  case distinct =>
    rw [← List.append_assoc]
    refine List.nodup_append'.mpr ⟨h.distinct, List.nodup_singleton _, fun x hx hc => ?_⟩
    exact h.cur_not_mem hcur hx (List.mem_singleton.mp hc)
  case known =>
    intro x hx
    simp only [hcore, List.mem_cons, List.mem_append, List.not_mem_nil, or_false] at hx
    refine h.known x ?_
    simp only [List.mem_cons, List.mem_append]
    tauto
  case linked =>
    refine h.linked.imp_of_mem_imp fun a b _ hb hab => ?_
    rwa [(smpYield_other hcur (hpout b hb)).1]
  case lastEnd => simpa only [hcore] using h.lastEnd
  case staleEnd =>
    intro hnil x hx
    simp only [hcore] at hx
    exact List.mem_append_left _ (h.staleEnd hnil x hx)
  case stalePrev =>
    rintro x rfl q hq
    rw [(smpYield_other hcur (hpout x List.mem_cons_self)).1] at hq
    rcases h.stalePrev x rfl q hq with hfin | ⟨rfl, -⟩
    · exact .inl (List.mem_append_left _ hfin)
    · exact .inl (List.mem_append_right _ List.mem_cons_self)
  case history => exact h.history

-- The thread that gets a task, before it is linked: new, or the first finished
-- one, with `fin'` the finished threads that are left.
structure Chosen (s : Tasks) (fin : List ThreadRef) (new : ThreadRef) (fin' : List ThreadRef)
    (m : Machine) : Prop where
  core : m.core = { s.machine.core with
    finishedList := fin'.head?, finishedListEnd := fin'.getLast? }
  finished : Links m.next fin'.head? fin' none
  headPrev : ∀ t, fin'.head? = some t → (m.threads t).prev = none
  newNext : m.next new = fin'.head?
  size : 1024 ≤ (m.threads new).stackSize
  same : ∀ t, t ∉ fin → t ≠ new → m.threads t = s.machine.threads t
  isDead : ∀ t ∈ fin', (m.threads t).status = .dead ∧ 1024 ≤ (m.threads t).stackSize
  freed : m.freed = s.machine.freed
  origin : (fin = [] ∧ fin' = [] ∧ new ∉ s.known) ∨ fin = new :: fin'

-- With no finished thread the task gets a new one.
theorem chosen_new (h : QueueInv s pending [] tail) (entry arg : BitVec 64) {grant : Grant}
    (hthread : grant.thread ≠ 0) (hstack : grant.stack ≠ 0) (hfresh : grant.thread ∉ s.known) :
    (createThread entry arg s.machine grant).1 = some grant.thread ∧
      Chosen s [] grant.thread [] (createThread entry arg s.machine grant).2 := by
  simp only [createThread, hthread, hstack, if_false]
  refine ⟨trivial, ?_, rfl, nofun, ?_, ?_, fun t _ hne => ?_, nofun, ?_,
    .inl ⟨rfl, rfl, hfresh⟩⟩
  · have hlist : s.machine.core.finishedList = none := h.finished
    have hend : s.machine.core.finishedListEnd = none := h.finishedEnd
    have hsame : s.machine.core = { s.machine.core with
        finishedList := s.machine.core.finishedList
        finishedListEnd := s.machine.core.finishedListEnd } := rfl
    rwa [hlist, hend] at hsame
  · simp [Machine.next, ThreadState.zero]
  · simp [PAGE_SIZE]
  · simp [hne]
  · simp only [setThread_freed]

section Reuse

variable {x : ThreadRef} {rest : List ThreadRef}

theorem QueueInv.finished_next (h : QueueInv s pending (x :: rest) tail) :
    s.machine.next x = rest.head? := by
  have hrest := h.finished.2
  cases rest with
  | nil => exact hrest
  | cons y rest => exact hrest.1

theorem reset_threads (entry arg : BitVec 64) (h : s.machine.next x = rest.head?)
    (t : ThreadRef) :
    (resetThread entry arg (unlinkFinished s.machine none x) x).threads t =
      { s.machine.threads t with
        rsp := if t = x then (s.machine.threads x).stackBottom +
          (s.machine.threads x).stackSize else (s.machine.threads t).rsp
        prev := if rest.head? = some t then none else (s.machine.threads t).prev } := by
  rw [← show (s.machine.threads x).next = rest.head? from h]
  simp only [resetThread, setThread_threads, unlinkFinished_threads, reduceCtorEq, if_false]
  split
  · rename_i heq
    subst heq
    rfl
  · rfl

-- The end of the finished list, without its first thread.
theorem QueueInv.finishedEnd_rest (h : QueueInv s pending (x :: rest) tail) :
    (if s.machine.core.finishedListEnd = some x then
      ((unlinkFinished s.machine none x).threads x).prev
      else s.machine.core.finishedListEnd) = rest.getLast? := by
  cases rest with
  | nil =>
      have hend : s.machine.core.finishedListEnd = some x := h.finishedEnd
      rw [if_pos hend, unlinkFinished_threads]
      dsimp only
      rw [show (s.machine.threads x).next = none from h.finished_next]
      exact h.headPrev x rfl
  | cons y rest =>
      have hnodup := (List.nodup_append'.mp h.distinct).2.1
      have hend : s.machine.core.finishedListEnd = (y :: rest).getLast? := h.finishedEnd
      rw [hend, if_neg fun hlast => (List.nodup_cons.mp hnodup).1 (List.mem_of_getLast? hlast)]

-- Else it gets the first finished one.
theorem chosen_reused (h : QueueInv s pending (x :: rest) tail) (entry arg : BitVec 64) :
    Chosen s (x :: rest) x rest (resetThread entry arg (unlinkFinished s.machine none x) x) := by
  have hhead := h.finished_next
  have hthreads (t : ThreadRef) := reset_threads entry arg hhead t
  have hnext : (resetThread entry arg (unlinkFinished s.machine none x) x).next =
      s.machine.next := funext fun t => by
    rw [Machine.next, hthreads]
    rfl
  refine ⟨?_, ?_, fun t ht => ?_, ?_, ?_, fun t ht hne => ?_, fun t ht => ?_, ?_, .inr rfl⟩
  · change (unlinkFinished s.machine none x).core = _
    rw [unlinkFinished_core, if_pos h.finished.1, h.finishedEnd_rest]
    exact congrArg (fun first => { s.machine.core with
      finishedList := first, finishedListEnd := rest.getLast? }) hhead
  · rw [hnext, ← hhead]
    exact h.finished.2
  · rw [hthreads]
    exact if_pos ht
  · rw [hnext, hhead]
  · rw [hthreads]
    exact (h.isDead x List.mem_cons_self).2
  · rw [hthreads, if_neg hne, if_neg]
    intro hfirst
    exact ht (List.mem_cons_of_mem _ (List.mem_of_head? hfirst))
  · rw [hthreads]
    exact h.isDead t (List.mem_cons_of_mem _ ht)
  · change (unlinkFinished s.machine none x).freed = _
    simp only [unlinkFinished, unlinkEnds, unlinkNeighbours, setChecked_freed]

end Reuse

-- smp_push_task on a core in good order.
theorem smpPushTask_chosen (h : QueueInv s pending fin tail) {entry arg : BitVec 64} {grant : Grant}
    {turns : Nat} {new : ThreadRef} {m : Machine} (hthread : grant.thread ≠ 0)
    (hstack : grant.stack ≠ 0) (hfresh : grant.thread ∉ s.known)
    (hstep : smpPushTask entry arg turns grant s.machine = .ok (new, m)) :
    ∃ fin' m₁, Chosen s fin new fin' m₁ ∧
      m = linkReady (m₁.setThread new fun t => { t with arg := arg, status := .ready }) new := by
  unfold smpPushTask at hstep
  cases fin with
  | nil =>
      have htake : takeFinished entry arg turns none s.machine.core.finishedList s.machine =
          .ok (none, s.machine) := by
        rw [show s.machine.core.finishedList = none from h.finished]
        cases turns <;> rfl
      obtain ⟨hcreate, hchosen⟩ := chosen_new h entry arg hthread hstack hfresh
      rw [htake] at hstep
      simp only [bind, Except.bind, hcreate, pure, Except.pure, Except.ok.injEq,
        Prod.mk.injEq] at hstep
      obtain ⟨rfl, rfl⟩ := hstep
      exact ⟨[], _, hchosen, rfl⟩
  | cons x rest =>
      obtain ⟨hlist, -⟩ := h.finished
      obtain ⟨hdead, hsize⟩ := h.isDead x List.mem_cons_self
      cases turns with
      | zero =>
          rw [hlist] at hstep
          cases hstep
      | succ turns =>
          have htake : takeFinished entry arg (turns + 1) none s.machine.core.finishedList s.machine =
              .ok (some x, resetThread entry arg (unlinkFinished s.machine none x) x) := by
            rw [hlist, takeFinished, if_pos hdead, if_neg (by omega)]
            rfl
          rw [htake] at hstep
          simp only [bind, Except.bind, pure, Except.pure, Except.ok.injEq, Prod.mk.injEq] at hstep
          obtain ⟨rfl, rfl⟩ := hstep
          exact ⟨rest, _, chosen_reused h entry arg, rfl⟩

theorem linkReady_core (m : Machine) (new : ThreadRef) :
    (linkReady m new).core = { m.core with
      readyListEnd := some new
      readyList := m.core.readyList.or (some new) } := by
  simp only [linkReady, setThread_core, setChecked_core]

section Push

variable {fin' : List ThreadRef} {new : ThreadRef} {m m' : Machine} {arg : BitVec 64}

-- The links after the push.
theorem Chosen.next_eq (h : Chosen s fin new fin' m)
    (hm : m' = linkReady (m.setThread new fun t => { t with arg := arg, status := .ready }) new)
    (x : ThreadRef) : m'.next x =
      if s.machine.core.readyListEnd = some x then some new else m.next x := by
  subst hm
  rw [Machine.next, linkReady_threads]
  simp only [setThread_core, setThread_threads, h.core, Machine.next]
  split
  · rfl
  · split
    · rename_i heq
      rw [heq]
    · rfl

-- What the push makes of the threads.
theorem Chosen.new_eq (h : Chosen s fin new fin' m)
    (hm : m' = linkReady (m.setThread new fun t => { t with arg := arg, status := .ready }) new) :
    (m'.threads new).prev = s.machine.core.readyListEnd ∧ (m'.threads new).status = .ready ∧
      (m'.threads new).stackSize = (m.threads new).stackSize := by
  rw [hm, linkReady_threads, if_pos rfl]
  simp only [setThread_core, setThread_threads, h.core, if_true]
  exact ⟨trivial, trivial, trivial⟩

theorem push_other
    (hm : m' = linkReady (m.setThread new fun t => { t with arg := arg, status := .ready }) new)
    {x : ThreadRef} (hx : x ≠ new) :
    (m'.threads x).prev = (m.threads x).prev ∧ (m'.threads x).status = (m.threads x).status ∧
      (m'.threads x).stackSize = (m.threads x).stackSize := by
  rw [hm, linkReady_threads]
  simp only [setThread_threads, if_neg hx]
  exact ⟨trivial, trivial, trivial⟩

theorem Chosen.core_eq (h : Chosen s fin new fin' m)
    (hm : m' = linkReady (m.setThread new fun t => { t with arg := arg, status := .ready }) new) :
    m'.core = { s.machine.core with
      readyListEnd := some new
      readyList := s.machine.core.readyList.or (some new)
      finishedList := fin'.head?
      finishedListEnd := fin'.getLast? } := by
  rw [hm, linkReady_core, setThread_core, h.core]

theorem Chosen.subset (hc : Chosen s fin new fin' m) : fin' ⊆ fin := by
  rcases hc.origin with ⟨-, rfl, -⟩ | rfl
  · exact List.nil_subset _
  · exact List.subset_cons_self _ _

theorem Chosen.distinct (h : QueueInv s pending fin tail) (hc : Chosen s fin new fin' m) :
    (pending ++ [new] ++ fin').Nodup := by
  rcases hc.origin with ⟨rfl, rfl, hnew⟩ | rfl
  · have hout : new ∉ pending := fun hmem => hnew (h.known new
      (List.mem_cons_of_mem _ (List.mem_cons_of_mem _ (List.mem_append_left _ hmem))))
    have hpending := h.distinct
    simp only [List.append_nil] at hpending ⊢
    exact List.nodup_append'.mpr ⟨hpending, List.nodup_singleton _, fun x hx hn =>
      hout (List.mem_singleton.mp hn ▸ hx)⟩
  · simpa only [List.append_assoc, List.singleton_append] using h.distinct

-- Pending threads are others than the chosen one, and as they were.
theorem Chosen.pending_same (h : QueueInv s pending fin tail) (hc : Chosen s fin new fin' m)
    {x : ThreadRef} (hx : x ∈ pending) : x ≠ new ∧ m.threads x = s.machine.threads x := by
  have hfront := (List.nodup_append'.mp (hc.distinct h)).1
  have hne : x ≠ new := by
    rintro rfl
    exact (List.nodup_append'.mp hfront).2.2 hx List.mem_cons_self
  exact ⟨hne, hc.same x (fun hf => (List.nodup_append'.mp h.distinct).2.2 hx hf) hne⟩

-- A thread that runs is another than the chosen one, and as it was.
theorem Chosen.running_same (h : QueueInv s pending fin tail) (hc : Chosen s fin new fin' m)
    {x : ThreadRef} (hx : (s.machine.threads x).status = .running) (hknown : x ∈ s.known) :
    x ≠ new ∧ m.threads x = s.machine.threads x := by
  have hfin : x ∉ fin := fun hf => by
    rw [(h.isDead x hf).1] at hx
    cases hx
  have hne : x ≠ new := by
    rintro rfl
    rcases hc.origin with ⟨-, -, hnew⟩ | rfl
    · exact hnew hknown
    · exact hfin List.mem_cons_self
  exact ⟨hne, hc.same x hfin hne⟩

-- The chosen thread is put behind the pending ones, and leads to the finished list.
theorem Chosen.push_ready (h : QueueInv s pending fin tail) (hc : Chosen s fin new fin' m)
    (hm : m' = linkReady (m.setThread new fun t => { t with arg := arg, status := .ready }) new)
    (hend : s.machine.core.readyListEnd = pending.getLast?) :
    Links m'.next m'.core.readyList (pending ++ [new]) (m.next new) := by
  have hnodup : pending.Nodup := (List.nodup_append'.mp h.distinct).1
  have hnewend : s.machine.core.readyListEnd ≠ some new := fun hlast =>
    (hc.pending_same h (List.mem_of_getLast? (hend ▸ hlast))).1 rfl
  rw [hc.core_eq hm]
  refine Links.append (h.ready.leads_on hnodup (fun hnil => ?_) fun x hx => ?_) ⟨rfl, ?_⟩
  · subst hnil
    rw [show s.machine.core.readyList = tail from h.ready]
    rcases h.tail with rfl | rfl
    · rfl
    · rcases hc.origin with ⟨rfl, -, -⟩ | rfl
      · rw [show s.machine.core.finishedList = none from h.finished]
        rfl
      · rw [h.finished.1]
        rfl
  · rw [hc.next_eq hm, hend, Machine.next, (hc.pending_same h hx).2, Machine.next]
  · rw [hc.next_eq hm, if_neg hnewend]
    rfl

theorem Chosen.push_inv (h : QueueInv s pending fin tail) (hc : Chosen s fin new fin' m)
    (hm : m' = linkReady (m.setThread new fun t => { t with arg := arg, status := .ready }) new)
    (hend : s.machine.core.readyListEnd = pending.getLast?) :
    QueueInv ⟨m', new :: s.known, s.pushed ++ [new], s.dispatched⟩ (pending ++ [new]) fin'
      (m.next new) := by
  have hcore := hc.core_eq hm
  have hfin (x : ThreadRef) (hx : x ∈ fin') : x ≠ new := by
    rintro rfl
    exact (List.nodup_append'.mp (hc.distinct h)).2.2
      (List.mem_append_right _ List.mem_cons_self) hx
  have hrunning (x : ThreadRef) (hx : (s.machine.threads x).status = .running)
      (hknown : x ∈ s.known) : (m'.threads x).status = .running ∧
        (m'.threads x).stackSize = (s.machine.threads x).stackSize := by
    obtain ⟨hne, hsame⟩ := hc.running_same h hx hknown
    obtain ⟨-, hstatus, hsize⟩ := push_other hm hne
    exact ⟨by rw [hstatus, hsame, hx], by rw [hsize, hsame]⟩
  constructor
  case ready => exact hc.push_ready h hm hend
  case tail =>
    simp only [hcore]
    exact .inr hc.newNext
  case finished =>
    simp only [hcore]
    refine hc.finished.congr fun x hx => ?_
    rw [hc.next_eq hm, if_neg]
    intro hlast
    rw [hend] at hlast
    exact (List.nodup_append'.mp h.distinct).2.2 (List.mem_of_getLast? hlast) (hc.subset hx)
  case finishedEnd => simp only [hcore]
  case headPrev =>
    intro x hx
    rw [(push_other hm (hfin x (List.mem_of_head? hx))).1]
    exact hc.headPrev x hx
  case isReady =>
    intro x hx
    rcases List.mem_append.mp hx with hx | hx
    · obtain ⟨hne, hsame⟩ := hc.pending_same h hx
      obtain ⟨-, hstatus, hsize⟩ := push_other hm hne
      rw [hstatus, hsize, hsame]
      exact h.isReady x hx
    · obtain rfl := List.mem_singleton.mp hx
      obtain ⟨-, hstatus, hsize⟩ := hc.new_eq hm
      exact ⟨hstatus, hsize ▸ hc.size⟩
  case isDead =>
    intro x hx
    obtain ⟨-, hstatus, hsize⟩ := push_other hm (hfin x hx)
    rw [hstatus, hsize]
    exact hc.isDead x hx
  case curRunning =>
    simp only [hcore]
    intro hne
    obtain ⟨hcur, hcursize⟩ := h.curRunning hne
    obtain ⟨hstatus, hsize⟩ := hrunning _ hcur (h.known _ List.mem_cons_self)
    exact ⟨hstatus, hsize ▸ hcursize⟩
  case idleRunning =>
    simp only [hcore]
    exact (hrunning _ h.idleRunning (h.known _ (List.mem_cons_of_mem _ List.mem_cons_self))).1
  case distinct => exact hc.distinct h
  case known =>
    intro x hx
    simp only [hcore, List.mem_cons, List.mem_append, List.not_mem_nil, or_false] at hx
    have hold := h.known x
    simp only [List.mem_cons, List.mem_append] at hold ⊢
    rcases hx with hx | hx | (hx | hx) | hx
    · exact .inr (hold (.inl hx))
    · exact .inr (hold (.inr (.inl hx)))
    · exact .inr (hold (.inr (.inr (.inl hx))))
    · exact .inl hx
    · exact .inr (hold (.inr (.inr (.inr (hc.subset hx)))))
  case linked =>
    refine List.isChain_append.mpr ⟨h.linked.imp_of_mem_imp fun a b _ hb hab => ?_,
      List.isChain_singleton _, fun a ha b hb => ?_⟩
    · obtain ⟨hne, hsame⟩ := hc.pending_same h hb
      rwa [(push_other hm hne).1, hsame]
    · cases hb
      rw [(hc.new_eq hm).1, hend]
      exact ha
  case lastEnd =>
    intro x hx
    rw [List.getLast?_concat] at hx
    simpa only [hcore] using hx
  case staleEnd =>
    intro hnil
    exact absurd hnil (by simp)
  case stalePrev =>
    intro x hx q hq
    have hnil : pending = [] := by
      cases pending with
      | nil => rfl
      | cons p rest => simp at hx
    subst hnil
    cases hx
    rw [(hc.new_eq hm).1, hend] at hq
    cases hq
  case history => simp only [h.history, List.append_assoc]

-- Behind a thread that was dispatched before, the new one closes a loop.
theorem Chosen.push_loop (h : QueueInv s pending fin tail) (hc : Chosen s fin new fin' m)
    (hm : m' = linkReady (m.setThread new fun t => { t with arg := arg, status := .ready }) new)
    {e : ThreadRef} (hend : s.machine.core.readyListEnd = some e)
    (hstatus : (s.machine.threads e).status ≠ .ready) :
    ¬ ∃ list, Links m'.next m'.core.readyList list none := by
  have hnil : pending = [] := by
    cases hcase : pending.getLast? with
    | none => exact List.getLast?_eq_none_iff.mp hcase
    | some p =>
        have hp := h.lastEnd p hcase
        rw [hend, Option.some.injEq] at hp
        subst hp
        exact absurd (h.isReady e (List.mem_of_getLast? hcase)).1 hstatus
  subst hnil
  have hefin := h.staleEnd rfl e hend
  have hnext := hc.next_eq hm
  have hnexte : m'.next e = some new := by rw [hnext, if_pos hend]
  rcases hc.origin with ⟨rfl, -, -⟩ | rfl
  · cases hefin
  have hready : m'.core.readyList = some new := by
    have hlist : s.machine.core.readyList = tail := h.ready
    rw [hm, linkReady_core, setThread_core, hc.core]
    dsimp only
    rw [hlist]
    rcases h.tail with htail | htail
    · rw [htail]
      rfl
    · rw [htail, h.finished.1]
      rfl
  rw [hready]
  by_cases hself : e = new
  · subst hself
    exact Links.no_end_of_loop (l := []) ⟨rfl, hnexte⟩
  · have hrest : e ∈ fin' := (List.mem_cons.mp hefin).resolve_left hself
    obtain ⟨front, back, rfl⟩ := List.append_of_mem hrest
    have hnodup := (List.nodup_append'.mp h.distinct).2.1
    have hout (x : ThreadRef) (hx : x ∈ front) : e ≠ x := by
      rintro rfl
      exact (List.nodup_append'.mp (List.nodup_cons.mp hnodup).2).2.2 hx List.mem_cons_self
    have hother (x : ThreadRef) (hx : e ≠ x) : m'.next x = m.next x := by
      rw [hnext, hend, if_neg fun heq => hx (Option.some.inj heq)]
    have hfinished := hc.finished
    rw [show front ++ e :: back = front ++ [e] ++ back by simp] at hfinished
    obtain ⟨mid, hfront, -⟩ := Links.append_iff.mp hfinished
    have hloop := hfront.redirect (fun x hx => hother x (hout x hx)) hnexte
    refine Links.no_end_of_loop (l := front ++ [e]) ⟨rfl, ?_⟩
    rw [hother new hself, hc.newNext]
    simpa using hloop

end Push

-- One step from a core in good order: it stays so exactly where the end of the
-- ready list is to be trusted.
theorem QueueInv.step (h : QueueInv s pending fin tail) {call : TaskCall}
    (hstep : TaskStep s call t) :
    (EndPending s call → ∃ pending fin tail, QueueInv t pending fin tail) ∧
      (TasksQueued t → EndPending s call) := by
  cases hstep with
  | push hthread hstack hfresh hpush =>
      obtain ⟨fin', m₁, hchosen, hm⟩ := smpPushTask_chosen h hthread hstack hfresh hpush
      refine ⟨fun hok => ⟨_, _, _, hchosen.push_inv h hm (h.end_eq hok)⟩, ?_⟩
      rintro ⟨list, hlist, -⟩ e he
      by_contra hstatus
      exact hchosen.push_loop h hm he hstatus ⟨list, hlist⟩
  | dispatch hidle hdispatch =>
      refine ⟨fun _ => ?_, fun _ => trivial⟩
      cases pending with
      | nil =>
          obtain ⟨rfl, rfl⟩ := h.dispatch_none hdispatch
          refine ⟨_, _, _, h.congr rfl (fun x => ⟨_, rfl⟩) rfl rfl ?_⟩
          simp
      | cons p pending => exact ⟨_, _, _, h.dispatch hidle hdispatch⟩
  | yield =>
      refine ⟨fun _ => ?_, fun _ => trivial⟩
      by_cases hcur : s.machine.core.curThread = s.machine.core.idleThread
      · refine ⟨_, _, _, h.congr ?_ (fun x => ?_) rfl rfl rfl⟩
        · simp only [smpYield, hcur, if_true]
        · simp only [smpYield, hcur, if_true]
          exact ⟨_, rfl⟩
      · exact ⟨_, _, _, h.yield hcur⟩
  | work => exact ⟨fun _ => ⟨_, _, _, h.congr rfl (fun x => ⟨_, rfl⟩) rfl rfl rfl⟩, fun _ => trivial⟩

end Inv

-- The steps as a function, for runs on given cores.
def Tasks.apply (s : Tasks) : TaskCall → Except Stuck Tasks
  | .push entry arg grant =>
      if grant.thread ≠ 0 ∧ grant.stack ≠ 0 ∧ grant.thread ∉ s.known then do
        let (new, m) ← smpPushTask entry arg 100 grant s.machine
        return ⟨m, new :: s.known, s.pushed ++ [new], s.dispatched⟩
      else throw .nullDeref
  | .dispatch =>
      if s.machine.core.curThread = s.machine.core.idleThread then do
        let (next, m) ← apDispatch 100 s.machine
        return ⟨m, s.known, s.pushed, s.dispatched ++ next.toList⟩
      else throw .endless
  | .yield => return { s with machine := smpYield s.machine }
  | .work cpu memory => return { s with machine := { s.machine with cpu, memory } }

end AosKernel.Smp
