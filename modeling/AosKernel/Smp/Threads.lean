import AosKernel.Lib.Words
import AosKernel.Mm.Region

namespace AosKernel.Smp

open Verif Bytes Mm

inductive ThreadStatus
  | ready
  | running
  | blocked
  | dead
  deriving DecidableEq, Repr

-- The address of a thread_state; NULL is `none`.
abbrev ThreadRef := Nat

structure ThreadState where
  rsp : Nat
  arg : BitVec 64
  stackBottom : Nat
  stackSize : Nat
  status : ThreadStatus
  next : Option ThreadRef
  prev : Option ThreadRef
  deriving Repr

-- A thread_state after memset to 0: THREAD_STATUS_READY is 0.
def ThreadState.zero : ThreadState := ⟨0, 0, 0, 0, .ready, none, none⟩

-- The scheduling part of a core_state.
structure CoreState where
  curThread : ThreadRef
  idleThread : ThreadRef
  readyList : Option ThreadRef
  readyListEnd : Option ThreadRef
  finishedList : Option ThreadRef
  finishedListEnd : Option ThreadRef

-- The registers that thread_context_switch saves and restores. RSP is kept as
-- an address, the others as words.
structure Cpu where
  rsp : Nat
  rip : BitVec 64
  rdi : BitVec 64
  rbp : BitVec 64
  rbx : BitVec 64
  r12 : BitVec 64
  r13 : BitVec 64
  r14 : BitVec 64
  r15 : BitVec 64

-- An AP core with its threads and the memory that holds their stacks. Each
-- operation is one atomic step, so the spin locks are left out. `freed` notes
-- what has been given to avmf_free, latest first.
structure Machine where
  cpu : Cpu
  core : CoreState
  threads : ThreadRef → ThreadState
  memory : Bytes
  freed : List Nat

-- Why an operation does not return: it follows NULL, or a list without end.
inductive Stuck
  | nullDeref
  | endless
  deriving DecidableEq, Repr

def Machine.setThread (m : Machine) (t : ThreadRef) (f : ThreadState → ThreadState) : Machine :=
  { m with threads := Function.update m.threads t (f (m.threads t)) }

@[simp] theorem setThread_threads (m : Machine) (t : ThreadRef) (f : ThreadState → ThreadState)
    (x : ThreadRef) :
    (m.setThread t f).threads x = if x = t then f (m.threads t) else m.threads x := by
  simp only [Machine.setThread, Function.update_apply]

@[simp] theorem setThread_core (m : Machine) (t : ThreadRef) (f : ThreadState → ThreadState) :
    (m.setThread t f).core = m.core := rfl

@[simp] theorem setThread_freed (m : Machine) (t : ThreadRef) (f : ThreadState → ThreadState) :
    (m.setThread t f).freed = m.freed := rfl

@[simp] theorem setThread_memory (m : Machine) (t : ThreadRef) (f : ThreadState → ThreadState) :
    (m.setThread t f).memory = m.memory := rfl

-- A write through a pointer that is checked against NULL first.
def Machine.setChecked (m : Machine) : Option ThreadRef → (ThreadState → ThreadState) → Machine
  | none, _ => m
  | some t, f => m.setThread t f

@[simp] theorem setChecked_threads (m : Machine) (p : Option ThreadRef)
    (f : ThreadState → ThreadState) (x : ThreadRef) :
    (m.setChecked p f).threads x = if p = some x then f (m.threads x) else m.threads x := by
  cases p with
  | none => rfl
  | some t =>
      simp only [Machine.setChecked, setThread_threads, Option.some.injEq, eq_comm (a := x)]
      split
      · rename_i h
        rw [h]
      · rfl

@[simp] theorem setChecked_core (m : Machine) (p : Option ThreadRef)
    (f : ThreadState → ThreadState) : (m.setChecked p f).core = m.core := by cases p <;> rfl

@[simp] theorem setChecked_cpu (m : Machine) (p : Option ThreadRef)
    (f : ThreadState → ThreadState) : (m.setChecked p f).cpu = m.cpu := by cases p <;> rfl

@[simp] theorem setChecked_memory (m : Machine) (p : Option ThreadRef)
    (f : ThreadState → ThreadState) : (m.setChecked p f).memory = m.memory := by cases p <;> rfl

@[simp] theorem setChecked_freed (m : Machine) (p : Option ThreadRef)
    (f : ThreadState → ThreadState) : (m.setChecked p f).freed = m.freed := by cases p <;> rfl

section Switch

def Machine.push (m : Machine) (w : BitVec 64) : Machine :=
  { m with
    cpu := { m.cpu with rsp := m.cpu.rsp - 8 }
    memory := writeWord m.memory (m.cpu.rsp - 8) w }

def Machine.pop (m : Machine) (into : BitVec 64 → Cpu → Cpu) : Machine :=
  { m with cpu := into (readWord m.memory m.cpu.rsp) { m.cpu with rsp := m.cpu.rsp + 8 } }

@[simp] theorem push_core (m : Machine) (w : BitVec 64) : (m.push w).core = m.core := rfl

@[simp] theorem push_threads (m : Machine) (w : BitVec 64) : (m.push w).threads = m.threads := rfl

@[simp] theorem push_freed (m : Machine) (w : BitVec 64) : (m.push w).freed = m.freed := rfl

@[simp] theorem pop_core (m : Machine) (into : BitVec 64 → Cpu → Cpu) :
    (m.pop into).core = m.core := rfl

@[simp] theorem pop_threads (m : Machine) (into : BitVec 64 → Cpu → Cpu) :
    (m.pop into).threads = m.threads := rfl

@[simp] theorem pop_freed (m : Machine) (into : BitVec 64 → Cpu → Cpu) :
    (m.pop into).freed = m.freed := rfl

-- thread_context_switch, from its entry with RDI = old and RSI = new to the
-- instruction after its `ret`.
def threadContextSwitch (m : Machine) (old new : ThreadRef) : Machine :=
  let m := m.push (BitVec.ofNat 64 old)
  let m := m.push m.cpu.rbp
  let m := m.push m.cpu.rbx
  let m := m.push m.cpu.r12
  let m := m.push m.cpu.r13
  let m := m.push m.cpu.r14
  let m := m.push m.cpu.r15
  let m := m.setThread old fun t => { t with rsp := m.cpu.rsp }
  let m := { m with cpu := { m.cpu with rsp := (m.threads new).rsp } }
  let m := m.pop fun w cpu => { cpu with r15 := w }
  let m := m.pop fun w cpu => { cpu with r14 := w }
  let m := m.pop fun w cpu => { cpu with r13 := w }
  let m := m.pop fun w cpu => { cpu with r12 := w }
  let m := m.pop fun w cpu => { cpu with rbx := w }
  let m := m.pop fun w cpu => { cpu with rbp := w }
  let m := m.pop fun w cpu => { cpu with rdi := w }
  m.pop fun w cpu => { cpu with rip := w }

@[simp] theorem threadContextSwitch_core (m : Machine) (old new : ThreadRef) :
    (threadContextSwitch m old new).core = m.core := by
  simp only [threadContextSwitch, pop_core, setThread_core, push_core]

@[simp] theorem threadContextSwitch_freed (m : Machine) (old new : ThreadRef) :
    (threadContextSwitch m old new).freed = m.freed := by
  simp only [threadContextSwitch, pop_freed, setThread_freed, push_freed]

theorem threadContextSwitch_threads (m : Machine) (old new x : ThreadRef) :
    ∃ rsp, (threadContextSwitch m old new).threads x = { m.threads x with rsp := rsp } := by
  simp only [threadContextSwitch, pop_threads, setThread_threads, push_threads]
  split
  · rename_i h
    subst h
    exact ⟨_, rfl⟩
  · exact ⟨_, rfl⟩

end Switch

section Push

variable (entry arg : BitVec 64)

-- What a new thread's stack is given, in the order of the pushes: RIP, RDI,
-- RBP, RBX, R12, R13, R14, R15.
def startFrame : List (BitVec 64) := [entry, arg, 0, 0, 0, 0, 0, 0]

-- What the two calls of avmf_alloc in create_thread return.
structure Grant where
  thread : Nat
  stack : Nat

def createThread (m : Machine) (grant : Grant) : Option ThreadRef × Machine :=
  if grant.thread = 0 then (none, m)
  else
    let m := m.setThread grant.thread fun _ => .zero
    if grant.stack = 0 then (none, m)
    else
      let top := grant.stack + PAGE_SIZE
      let m := { m with
        memory := pushWords (clear m.memory grant.stack PAGE_SIZE) top (startFrame entry arg) }
      (some grant.thread, m.setThread grant.thread fun t => { t with
        rsp := top - 8 * (startFrame entry arg).length
        stackBottom := grant.stack
        stackSize := PAGE_SIZE
        arg := arg
        status := .ready })

-- The unlinking of a finished thread, with `prev` in front of it on the walk:
-- first the neighbours, then the ends of the list.
def unlinkNeighbours (m : Machine) (prev : Option ThreadRef) (cur : ThreadRef) : Machine :=
  let m := m.setChecked prev fun t => { t with next := (m.threads cur).next }
  m.setChecked (m.threads cur).next fun t => { t with prev := prev }

def unlinkEnds (m : Machine) (cur : ThreadRef) : Machine :=
  { m with core := { m.core with
    finishedList :=
      if m.core.finishedList = some cur then (m.threads cur).next else m.core.finishedList
    finishedListEnd :=
      if m.core.finishedListEnd = some cur then (m.threads cur).prev
      else m.core.finishedListEnd } }

def unlinkFinished (m : Machine) (prev : Option ThreadRef) (cur : ThreadRef) : Machine :=
  unlinkEnds (unlinkNeighbours m prev cur) cur

-- A thread whose stack is too small is freed, its stack first if it has one.
def freeThread (m : Machine) (t : ThreadRef) : Machine :=
  let stack := (m.threads t).stackBottom
  let m := if stack ≠ 0 then { m with freed := stack :: m.freed } else m
  let m := m.setThread t fun t => { t with stackBottom := 0, stackSize := 0, rsp := 0 }
  { m with freed := t :: m.freed }

-- The frame is pushed from the top of the stack, and `rsp` stays at the top.
def resetThread (m : Machine) (t : ThreadRef) : Machine :=
  let top := (m.threads t).stackBottom + (m.threads t).stackSize
  let m := m.setThread t fun t => { t with rsp := top }
  { m with memory := pushWords m.memory top (startFrame entry arg) }

-- The walk over the finished list for a DEAD thread to use again; at most
-- `turns` threads are visited.
def takeFinished : Nat → Option ThreadRef → Option ThreadRef → Machine →
    Except Stuck (Option ThreadRef × Machine)
  | _, _, none, m => return (none, m)
  | 0, _, some _, _ => throw .endless
  | turns + 1, prev, some cur, m =>
      if (m.threads cur).status = .dead then
        let small := (m.threads cur).stackSize < 1024
        let m := unlinkFinished m prev cur
        if small then takeFinished turns prev (m.threads cur).next (freeThread m cur)
        else return (some cur, resetThread entry arg m cur)
      else takeFinished turns (some cur) (m.threads cur).next m

def linkReady (m : Machine) (new : ThreadRef) : Machine :=
  let m := m.setChecked m.core.readyListEnd fun t => { t with next := some new }
  let m := m.setThread new fun t => { t with prev := m.core.readyListEnd }
  { m with core := { m.core with
    readyListEnd := some new
    readyList := m.core.readyList.or (some new) } }

-- smp_push_task for an AP core, past the checks of core_idx. The result names
-- the thread that got the task.
def smpPushTask (turns : Nat) (grant : Grant) (m : Machine) :
    Except Stuck (ThreadRef × Machine) := do
  let (found, m) ← takeFinished entry arg turns none m.core.finishedList m
  let (new, m) := match found with
    | some t => (some t, m)
    | none => createThread entry arg m grant
  match new with
  | none => throw .nullDeref
  | some new =>
      let m := m.setThread new fun t => { t with arg := arg, status := .ready }
      return (new, linkReady m new)

end Push

-- Unlinking changes links only, and of the forward ones only that of `prev`.
theorem unlinkFinished_threads (m : Machine) (prev : Option ThreadRef) (cur x : ThreadRef) :
    (unlinkFinished m prev cur).threads x = { m.threads x with
      next := if prev = some x then (m.threads cur).next else (m.threads x).next
      prev := if (m.threads cur).next = some x then prev else (m.threads x).prev } := by
  have hnext : (if prev = some cur then { m.threads cur with next := (m.threads cur).next }
      else m.threads cur).next = (m.threads cur).next := by
    split <;> rfl
  simp only [unlinkFinished, unlinkEnds, unlinkNeighbours, setChecked_threads, hnext]
  split <;> split <;> rfl

theorem unlinkFinished_core (m : Machine) (prev : Option ThreadRef) (cur : ThreadRef) :
    (unlinkFinished m prev cur).core = { m.core with
      finishedList :=
        if m.core.finishedList = some cur then (m.threads cur).next else m.core.finishedList
      finishedListEnd :=
        if m.core.finishedListEnd = some cur then ((unlinkFinished m prev cur).threads cur).prev
        else m.core.finishedListEnd } := by
  have hnext : ((unlinkNeighbours m prev cur).threads cur).next = (m.threads cur).next := by
    have h := congrArg ThreadState.next (unlinkFinished_threads m prev cur cur)
    rw [show (unlinkFinished m prev cur).threads = (unlinkNeighbours m prev cur).threads from rfl] at h
    rw [h]
    split <;> rfl
  have hcore : (unlinkNeighbours m prev cur).core = m.core := by
    simp only [unlinkNeighbours, setChecked_core]
  unfold unlinkFinished unlinkEnds
  rw [hcore, hnext]

@[simp] theorem unlinkFinished_memory (m : Machine) (prev : Option ThreadRef) (cur : ThreadRef) :
    (unlinkFinished m prev cur).memory = m.memory := by
  simp only [unlinkFinished, unlinkEnds, unlinkNeighbours, setChecked_memory]

section Dispatch

def firstReady (m : Machine) : Nat → Option ThreadRef → Except Stuck (Option ThreadRef)
  | _, none => return none
  | 0, some _ => throw .endless
  | turns + 1, some t =>
      if (m.threads t).status = .ready then return some t
      else firstReady m turns (m.threads t).next

-- A turn of the idle loop of ap_kernel_entry: the thread it switches to, if any.
def apDispatch (turns : Nat) (m : Machine) : Except Stuck (Option ThreadRef × Machine) := do
  match ← firstReady m turns m.core.readyList with
  | none => return (none, m)
  | some next =>
      let m := { m with core := { m.core with readyList := (m.threads next).next } }
      let m := if m.core.readyListEnd = some next then
          { m with core := { m.core with readyListEnd := (m.threads next).prev } } else m
      let m := m.setThread next fun t => { t with status := .running }
      let cur := m.core.curThread
      let m := { m with core := { m.core with curThread := next } }
      return (some next, threadContextSwitch m cur next)

-- smp_yield on an AP core.
def smpYield (m : Machine) : Machine :=
  let cur := m.core.curThread
  let idle := m.core.idleThread
  if cur = idle then m
  else
    let m := m.setThread cur fun t => { t with status := .dead, next := none }
    let m := m.setChecked m.core.finishedListEnd fun t => { t with next := some cur }
    let m := m.setThread cur fun t => { t with prev := m.core.finishedListEnd }
    let m := { m with core := { m.core with
      finishedListEnd := some cur
      finishedList := m.core.finishedList.or (some cur)
      curThread := idle } }
    threadContextSwitch m cur idle

end Dispatch

end AosKernel.Smp
