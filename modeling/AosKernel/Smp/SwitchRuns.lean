import AosKernel.Lib.Trace
import AosKernel.Smp.StartFrame

namespace AosKernel.Smp

open Verif Bytes Mm

-- What a thread has when it calls thread_context_switch, and finds when that
-- call returns: its registers, and memory with its stack in it.
structure Context where
  cpu : Cpu
  memory : Bytes

-- A core, the thread that runs on it, and the threads that wait for it, each
-- with what it had when it was left.
structure StackUse where
  machine : Machine
  cur : ThreadRef
  parked : ThreadRef → Option Context

def ThreadState.top (t : ThreadState) : Nat := t.stackBottom + t.stackSize

def ThreadState.InStack (t : ThreadState) (x : Nat) : Prop := t.stackBottom ≤ x ∧ x < t.top

def StackUse.Live (s : StackUse) (t : ThreadRef) : Prop := t = s.cur ∨ s.parked t ≠ none

-- The lists have changed at most, and what is no part of a thread's stack.
structure SameStacks (m u : Machine) : Prop where
  cpu : u.cpu = m.cpu
  memory : u.memory = m.memory
  rsp : ∀ t, (u.threads t).rsp = (m.threads t).rsp
  stackBottom : ∀ t, (u.threads t).stackBottom = (m.threads t).stackBottom
  stackSize : ∀ t, (u.threads t).stackSize = (m.threads t).stackSize

section SameStacks

variable {m m' u : Machine}

theorem SameStacks.trans (h : SameStacks m u) (h' : SameStacks u m') : SameStacks m m' :=
  ⟨h'.cpu.trans h.cpu, h'.memory.trans h.memory, fun t => (h'.rsp t).trans (h.rsp t),
    fun t => (h'.stackBottom t).trans (h.stackBottom t),
    fun t => (h'.stackSize t).trans (h.stackSize t)⟩

theorem SameStacks.setCore (m : Machine) (core : CoreState) :
    SameStacks m { m with core := core } :=
  ⟨rfl, rfl, fun _ => rfl, fun _ => rfl, fun _ => rfl⟩

theorem SameStacks.setThread (m : Machine) (t : ThreadRef) {f : ThreadState → ThreadState}
    (hf : ∀ x, (f x).rsp = x.rsp ∧ (f x).stackBottom = x.stackBottom ∧
      (f x).stackSize = x.stackSize) : SameStacks m (m.setThread t f) := by
  refine ⟨rfl, rfl, fun x => ?_, fun x => ?_, fun x => ?_⟩ <;> rw [setThread_threads] <;> split
  · rename_i heq
    rw [heq, (hf _).1]
  · rfl
  · rename_i heq
    rw [heq, (hf _).2.1]
  · rfl
  · rename_i heq
    rw [heq, (hf _).2.2]
  · rfl

theorem SameStacks.setChecked (m : Machine) (p : Option ThreadRef) {f : ThreadState → ThreadState}
    (hf : ∀ x, (f x).rsp = x.rsp ∧ (f x).stackBottom = x.stackBottom ∧
      (f x).stackSize = x.stackSize) : SameStacks m (m.setChecked p f) := by
  cases p with
  | none => exact .setCore m m.core
  | some t => exact .setThread m t hf

end SameStacks

-- The registers a new thread starts with.
def startCpu (entry arg : BitVec 64) (top : Nat) : Cpu := ⟨top, entry, arg, 0, 0, 0, 0, 0, 0⟩

inductive StackAction
  | run
  | lists
  | create (new : ThreadRef)
  | retire (t : ThreadRef)
  | switch (new : ThreadRef)

-- The thread that runs writes to its own stack and to memory that is no stack.
-- create_thread is given a page no live thread has. At a switch RDI is the
-- thread that calls, and its stack has room for the frame.
inductive StackStep : StackUse → StackAction → StackUse → Prop
  | run {s cpu memory} :
      (∀ t, s.parked t ≠ none → ∀ x, (s.machine.threads t).InStack x →
        memory x = s.machine.memory x) →
      StackStep s .run { s with machine := { s.machine with cpu := cpu, memory := memory } }
  | lists {s machine} : SameStacks s.machine machine →
      StackStep s .lists { s with machine := machine }
  | create {s entry arg grant new machine} :
      createThread entry arg s.machine grant = (some new, machine) → ¬ s.Live new →
      (∀ t, s.Live t → (s.machine.threads t).top ≤ grant.stack ∨
        grant.stack + PAGE_SIZE ≤ (s.machine.threads t).stackBottom) →
      StackStep s (.create new) { s with
        machine := machine
        parked := Function.update s.parked new
          (some ⟨startCpu entry arg (grant.stack + PAGE_SIZE), machine.memory⟩) }
  | retire {s t} : StackStep s (.retire t) { s with parked := Function.update s.parked t none }
  | switch {s new ret u} : new ≠ s.cur → s.parked new ≠ none →
      s.machine.cpu.rdi = BitVec.ofNat 64 s.cur →
      (s.machine.threads s.cur).stackBottom + 64 ≤ s.machine.cpu.rsp →
      s.machine.cpu.rsp ≤ (s.machine.threads s.cur).top →
      SameStacks (s.machine.push ret) u →
      StackStep s (.switch new) {
        machine := threadContextSwitch u s.cur new
        cur := new
        parked := Function.update (Function.update s.parked s.cur
          (some ⟨{ s.machine.cpu with rip := ret }, s.machine.memory⟩)) new none }

-- The frame of a thread that waits: RSP points to its registers and the return
-- address, and its stack above them is as the thread left it.
structure Parked (m : Machine) (t : ThreadRef) (c : Context) : Prop where
  rsp : (m.threads t).rsp + 64 = c.cpu.rsp
  bottom : (m.threads t).stackBottom ≤ (m.threads t).rsp
  top : c.cpu.rsp ≤ (m.threads t).top
  words : ∀ i w, [c.cpu.r15, c.cpu.r14, c.cpu.r13, c.cpu.r12, c.cpu.rbx, c.cpu.rbp, c.cpu.rdi,
    c.cpu.rip][i]? = some w → readWord m.memory ((m.threads t).rsp + 8 * i) = w
  stack : ∀ x, c.cpu.rsp ≤ x → x < (m.threads t).top → m.memory x = c.memory x

structure StackInv (s : StackUse) : Prop where
  cur : s.parked s.cur = none
  parked : ∀ t c, s.parked t = some c → Parked s.machine t c
  apart : ∀ t t', s.Live t → s.Live t' → t ≠ t' →
    (s.machine.threads t).top ≤ (s.machine.threads t').stackBottom ∨
      (s.machine.threads t').top ≤ (s.machine.threads t).stackBottom

-- A frame depends on the thread's own stack only.
theorem Parked.congr {m u : Machine} {t : ThreadRef} {c : Context} (h : Parked m t c)
    (hrsp : (u.threads t).rsp = (m.threads t).rsp)
    (hbottom : (u.threads t).stackBottom = (m.threads t).stackBottom)
    (hsize : (u.threads t).stackSize = (m.threads t).stackSize)
    (hmemory : ∀ x, (m.threads t).InStack x → u.memory x = m.memory x) : Parked u t c := by
  have htop : (u.threads t).top = (m.threads t).top := by
    rw [ThreadState.top, hbottom, hsize, ThreadState.top]
  have hle := h.top
  have hlow := h.bottom
  have hrsp' := h.rsp
  refine ⟨hrsp ▸ h.rsp, hrsp ▸ hbottom ▸ h.bottom, htop ▸ h.top, fun i w hw => ?_,
    fun x hlo hhi => ?_⟩
  · rw [hrsp, ← h.words i w hw]
    have hi := (List.getElem?_eq_some_iff.mp hw).1
    simp only [List.length_cons, List.length_nil] at hi
    exact readWord_congr fun j hj => hmemory _ ⟨by omega, by omega⟩
  · rw [htop] at hhi
    rw [hmemory x ⟨by omega, hhi⟩]
    exact h.stack x hlo hhi

-- What create_thread changes: the record of the new thread, and the page that
-- becomes its stack.
theorem createThread_changes {entry arg : BitVec 64} {grant : Grant} {m m' : Machine}
    {new : ThreadRef} (h : createThread entry arg m grant = (some new, m')) :
    (m'.threads new).stackBottom = grant.stack ∧ (∀ t, t ≠ new → m'.threads t = m.threads t) ∧
      ∀ x, x < grant.stack ∨ grant.stack + PAGE_SIZE ≤ x → m'.memory x = m.memory x := by
  unfold createThread at h
  split at h
  · cases h
  · dsimp only at h
    split at h
    · cases h
    · simp only [Prod.mk.injEq, Option.some.injEq] at h
      obtain ⟨rfl, rfl⟩ := h
      refine ⟨?_, fun t ht => ?_, fun x hx => ?_⟩
      · simp only [setThread_threads, if_true]
      · simp only [setThread_threads, ht, if_false]
      · have hlen : (startFrame entry arg).length = 8 := rfl
        simp only [setThread_memory]
        unfold PAGE_SIZE at hx ⊢
        rw [pushWords_other _ _ _ (by omega) (by omega), clear, if_neg (by omega)]

theorem createThread_parked {entry arg : BitVec 64} {grant : Grant} {m m' : Machine}
    {new : ThreadRef} (h : createThread entry arg m grant = (some new, m')) :
    Parked m' new ⟨startCpu entry arg (grant.stack + PAGE_SIZE), m'.memory⟩ := by
  have hframed := createThread_framed h
  obtain ⟨hbottom, -⟩ := createThread_changes h
  have htop : (m'.threads new).top = grant.stack + PAGE_SIZE := by
    rw [ThreadState.top, hbottom, hframed.size]
  have hrsp := hframed.rsp
  rw [hbottom, hframed.size] at hrsp
  have hpage : PAGE_SIZE = 4096 := rfl
  refine ⟨hrsp, by omega, Nat.le_of_eq htop.symm, fun i w hw => ?_, fun _ _ _ => rfl⟩
  have hi := (List.getElem?_eq_some_iff.mp hw).1
  simp only [List.length_cons, List.length_nil] at hi
  have haddr : (m'.threads new).rsp + 8 * i =
      (m'.threads new).stackBottom + (m'.threads new).stackSize - 8 * (7 - i + 1) := by
    rw [hbottom, hframed.size]
    omega
  rw [haddr]
  refine hframed.words (7 - i) w ?_
  rw [← hw]
  obtain rfl | rfl | rfl | rfl | rfl | rfl | rfl | rfl : i = 0 ∨ i = 1 ∨ i = 2 ∨ i = 3 ∨
    i = 4 ∨ i = 5 ∨ i = 6 ∨ i = 7 := by omega
  all_goals rfl

section Switch

variable {m u : Machine} {old new : ThreadRef}

theorem threadContextSwitch_memory (m : Machine) (old new : ThreadRef) :
    (threadContextSwitch m old new).memory = pushWords m.memory m.cpu.rsp (savedWords m old) := by
  simp only [threadContextSwitch, Machine.push, Machine.pop, setThread_memory, savedWords, pushWords]

theorem threadContextSwitch_thread (m : Machine) (old new x : ThreadRef) :
    (threadContextSwitch m old new).threads x =
      if x = old then { m.threads old with rsp := m.cpu.rsp - 56 } else m.threads x := by
  simp only [threadContextSwitch, pop_threads, setThread_threads, push_threads]
  refine if_congr Iff.rfl ?_ rfl
  simp only [Machine.push, Nat.sub_sub]

-- The call pushes the return address and seven registers.
theorem switched_memory {ret : BitVec 64} (h : SameStacks (m.push ret) u) {x : Nat}
    (hroom : 64 ≤ m.cpu.rsp) (hx : x < m.cpu.rsp - 64 ∨ m.cpu.rsp ≤ x) :
    (threadContextSwitch u old new).memory x = m.memory x := by
  rw [threadContextSwitch_memory, h.cpu, h.memory]
  simp only [Machine.push]
  have hlen : (savedWords u old).length = 7 := rfl
  rw [pushWords_other _ _ _ (by omega) (by omega), writeWord_other _ _ _ (by omega)]

theorem switched_word {ret : BitVec 64} (h : SameStacks (m.push ret) u)
    (hrdi : m.cpu.rdi = BitVec.ofNat 64 old) (hroom : 64 ≤ m.cpu.rsp) {i : Nat} {w : BitVec 64}
    (hw : [m.cpu.r15, m.cpu.r14, m.cpu.r13, m.cpu.r12, m.cpu.rbx, m.cpu.rbp, m.cpu.rdi,
      ret][i]? = some w) :
    readWord (threadContextSwitch u old new).memory (m.cpu.rsp - 64 + 8 * i) = w := by
  have hsaved : savedWords u old =
      [m.cpu.rdi, m.cpu.rbp, m.cpu.rbx, m.cpu.r12, m.cpu.r13, m.cpu.r14, m.cpu.r15] := by
    rw [savedWords, h.cpu, hrdi]
    rfl
  have hi := (List.getElem?_eq_some_iff.mp hw).1
  simp only [List.length_cons, List.length_nil] at hi
  rw [threadContextSwitch_memory, h.cpu, h.memory, hsaved]
  simp only [Machine.push]
  by_cases hlast : i = 7
  · -- the return address lies above the registers
    subst hlast
    obtain rfl : ret = w := Option.some.inj hw
    rw [show m.cpu.rsp - 64 + 8 * 7 = m.cpu.rsp - 8 by omega]
    rw [← readWord_writeWord m.memory (m.cpu.rsp - 8) ret]
    refine readWord_congr fun j hj => ?_
    rw [pushWords_other _ _ _ (by simp only [List.length_cons, List.length_nil]; omega) (by omega),
      readWord_writeWord]
  · rw [show m.cpu.rsp - 64 + 8 * i = m.cpu.rsp - 8 - 8 * (6 - i + 1) by omega]
    refine readWord_pushWords _ _ _ (by simp only [List.length_cons, List.length_nil]; omega) ?_
    rw [← hw]
    obtain rfl | rfl | rfl | rfl | rfl | rfl | rfl :
      i = 0 ∨ i = 1 ∨ i = 2 ∨ i = 3 ∨ i = 4 ∨ i = 5 ∨ i = 6 := by omega
    all_goals rfl

end Switch

namespace StackInv

variable {s t : StackUse} {action : StackAction}

theorem sameStacks {machine : Machine} (h : StackInv s) (hsame : SameStacks s.machine machine) :
    StackInv { s with machine := machine } := by
  refine ⟨h.cur, fun t c hc => ?_, fun t t' ht ht' hne => ?_⟩
  · exact (h.parked t c hc).congr (hsame.rsp t) (hsame.stackBottom t) (hsame.stackSize t)
      fun x _ => congrFun hsame.memory x
  · simp only [ThreadState.top, hsame.stackBottom, hsame.stackSize]
    exact h.apart t t' ht ht' hne

theorem retire (h : StackInv s) (t : ThreadRef) :
    StackInv { s with parked := Function.update s.parked t none } := by
  have hsub {x : ThreadRef} {c : Context} (hx : Function.update s.parked t none x = some c) :
      s.parked x = some c := by
    rw [Function.update_apply] at hx
    split at hx
    · cases hx
    · exact hx
  have hlive {x : ThreadRef}
      (hx : StackUse.Live { s with parked := Function.update s.parked t none } x) : s.Live x := by
    refine hx.imp id fun hparked => ?_
    obtain ⟨c, hc⟩ := Option.ne_none_iff_exists'.mp hparked
    rw [hsub hc]
    exact Option.some_ne_none c
  refine ⟨?_, fun x c hx => h.parked x c (hsub hx),
    fun x x' hx hx' => h.apart x x' (hlive hx) (hlive hx')⟩
  refine Option.eq_none_iff_forall_ne_some.mpr fun c hc => ?_
  have hcur := hsub hc
  rw [h.cur] at hcur
  cases hcur

theorem run {cpu : Cpu} {memory : Bytes} (h : StackInv s)
    (hmemory : ∀ t, s.parked t ≠ none → ∀ x, (s.machine.threads t).InStack x →
      memory x = s.machine.memory x) :
    StackInv { s with machine := { s.machine with cpu := cpu, memory := memory } } := by
  refine ⟨h.cur, fun t c hc => ?_, h.apart⟩
  exact (h.parked t c hc).congr rfl rfl rfl (hmemory t (by rw [hc]; exact Option.some_ne_none c))

theorem create {entry arg : BitVec 64} {grant : Grant} {new : ThreadRef} {machine : Machine}
    (h : StackInv s) (hcreate : createThread entry arg s.machine grant = (some new, machine))
    (hnew : ¬ s.Live new)
    (hpage : ∀ t, s.Live t → (s.machine.threads t).top ≤ grant.stack ∨
      grant.stack + PAGE_SIZE ≤ (s.machine.threads t).stackBottom) :
    StackInv { s with
      machine := machine
      parked := Function.update s.parked new
        (some ⟨startCpu entry arg (grant.stack + PAGE_SIZE), machine.memory⟩) } := by
  have hsize := (createThread_framed hcreate).size
  obtain ⟨hbottom, hthreads, hmemory⟩ := createThread_changes hcreate
  have hother {t : ThreadRef} (ht : s.Live t) : t ≠ new := fun heq => hnew (heq ▸ ht)
  have hold {t : ThreadRef} (ht : s.Live t) : machine.threads t = s.machine.threads t :=
    hthreads t (hother ht)
  have hpage' {t : ThreadRef} (ht : s.Live t) :
      (machine.threads t).top ≤ (machine.threads new).stackBottom ∨
        (machine.threads new).top ≤ (machine.threads t).stackBottom := by
    have htop : (machine.threads new).top = grant.stack + PAGE_SIZE := by
      rw [ThreadState.top, hbottom, hsize]
    rw [hold ht, hbottom, htop]
    exact hpage t ht
  have hlive {t : ThreadRef} (ht : StackUse.Live { s with
      machine := machine
      parked := Function.update s.parked new
        (some ⟨startCpu entry arg (grant.stack + PAGE_SIZE), machine.memory⟩) } t) :
      t = new ∨ s.Live t := by
    by_cases heq : t = new
    · exact .inl heq
    · refine .inr (ht.imp id fun hparked => ?_)
      dsimp only at hparked
      rwa [Function.update_of_ne heq] at hparked
  refine ⟨?_, fun t c hc => ?_, fun t t' ht ht' hne => ?_⟩
  · dsimp only
    rw [Function.update_of_ne (hother (.inl rfl)).symm.symm, h.cur]
  · simp only [Function.update_apply] at hc
    split at hc
    · rename_i heq
      subst heq
      cases hc
      exact createThread_parked hcreate
    · have ht : s.Live t := .inr (by rw [hc]; exact Option.some_ne_none c)
      have hsame := hold ht
      refine (h.parked t c hc).congr (by rw [hsame]) (by rw [hsame]) (by rw [hsame])
        fun x hx => hmemory x ?_
      have happart := hpage t ht
      obtain ⟨hlo, hhi⟩ := hx
      omega
  · rcases hlive ht with rfl | hold₁
    · rcases hlive ht' with rfl | hold₂
      · exact absurd rfl hne
      · exact (hpage' hold₂).symm
    · rcases hlive ht' with rfl | hold₂
      · exact hpage' hold₁
      · dsimp only
        rw [hold hold₁, hold hold₂]
        exact h.apart t t' hold₁ hold₂ hne

theorem switch {new : ThreadRef} {ret : BitVec 64} {u : Machine} (h : StackInv s)
    (hnew : new ≠ s.cur) (hparked : s.parked new ≠ none)
    (hrdi : s.machine.cpu.rdi = BitVec.ofNat 64 s.cur)
    (hroom : (s.machine.threads s.cur).stackBottom + 64 ≤ s.machine.cpu.rsp)
    (htop : s.machine.cpu.rsp ≤ (s.machine.threads s.cur).top)
    (hu : SameStacks (s.machine.push ret) u) :
    StackInv {
      machine := threadContextSwitch u s.cur new
      cur := new
      parked := Function.update (Function.update s.parked s.cur
        (some ⟨{ s.machine.cpu with rip := ret }, s.machine.memory⟩)) new none } := by
  have hroom' : 64 ≤ s.machine.cpu.rsp := by omega
  have hfield (x : ThreadRef) : ((threadContextSwitch u s.cur new).threads x).stackBottom =
      (s.machine.threads x).stackBottom ∧ ((threadContextSwitch u s.cur new).threads x).stackSize =
        (s.machine.threads x).stackSize := by
    rw [threadContextSwitch_thread]
    split
    · rename_i heq
      rw [heq]
      exact ⟨hu.stackBottom s.cur, hu.stackSize s.cur⟩
    · exact ⟨hu.stackBottom x, hu.stackSize x⟩
  have htops (x : ThreadRef) : ((threadContextSwitch u s.cur new).threads x).top =
      (s.machine.threads x).top := by
    rw [ThreadState.top, (hfield x).1, (hfield x).2, ThreadState.top]
  have hlive {t : ThreadRef} (ht : StackUse.Live {
      machine := threadContextSwitch u s.cur new
      cur := new
      parked := Function.update (Function.update s.parked s.cur
        (some ⟨{ s.machine.cpu with rip := ret }, s.machine.memory⟩)) new none } t) : s.Live t := by
    rcases ht with rfl | hparkedt
    · exact .inr hparked
    · by_cases heq : t = s.cur
      · exact .inl heq
      · refine .inr ?_
        simp only [Function.update_apply, heq, if_false] at hparkedt
        split at hparkedt
        · exact absurd rfl hparkedt
        · exact hparkedt
  refine ⟨?_, fun t c hc => ?_, fun t t' ht ht' hne => ?_⟩
  · simp only [Function.update_self]
  · simp only [Function.update_apply] at hc
    split at hc
    · cases hc
    · split at hc
      · rename_i heq
        subst heq
        cases hc
        have hrsp : ((threadContextSwitch u s.cur new).threads s.cur).rsp =
            s.machine.cpu.rsp - 64 := by
          rw [threadContextSwitch_thread, if_pos rfl, hu.cpu]
          simp only [Machine.push]
          omega
        refine ⟨?_, ?_, ?_, fun i w hw => ?_, fun x hlo hhi => ?_⟩
        · rw [hrsp]
          dsimp only
          omega
        · rw [hrsp, (hfield s.cur).1]
          omega
        · rw [htops]
          exact htop
        · rw [hrsp]
          exact switched_word hu hrdi hroom' hw
        · exact switched_memory hu hroom' (.inr hlo)
      · rename_i hother
        have ht : s.Live t := .inr (by rw [hc]; exact Option.some_ne_none c)
        have happart := h.apart t s.cur ht (.inl rfl) hother
        refine (h.parked t c hc).congr ?_ (hfield t).1 (hfield t).2 fun x hx => ?_
        · rw [threadContextSwitch_thread, if_neg hother]
          exact hu.rsp t
        · obtain ⟨hlo, hhi⟩ := hx
          exact switched_memory hu hroom' (by omega)
  · rw [htops, htops, (hfield t).1, (hfield t').1]
    exact h.apart t t' (hlive ht) (hlive ht') hne

theorem step {t : StackUse} {action : StackAction} (h : StackInv s) (hstep : StackStep s action t) :
    StackInv t := by
  cases hstep with
  | run hmemory => exact h.run hmemory
  | lists hsame => exact h.sameStacks hsame
  | create hcreate hnew hpage => exact h.create hcreate hnew hpage
  | retire => exact h.retire _
  | switch hnew hparked hrdi hroom htop hu => exact h.switch hnew hparked hrdi hroom htop hu

end StackInv

section Calls

variable {m m' : Machine}

-- smp_yield and a turn of the idle loop are such switches.
theorem smpYield_switches (h : m.core.curThread ≠ m.core.idleThread) :
    ∃ u, SameStacks m u ∧
      smpYield m = threadContextSwitch u m.core.curThread m.core.idleThread := by
  unfold smpYield
  rw [if_neg h]
  refine ⟨_, (SameStacks.setThread m _ ?_).trans ((SameStacks.setChecked _ _ ?_).trans
    ((SameStacks.setThread _ _ ?_).trans (.setCore _ _))), rfl⟩
  all_goals exact fun _ => ⟨rfl, rfl, rfl⟩

theorem apDispatch_switches {turns : Nat} {next : ThreadRef}
    (h : apDispatch turns m = .ok (some next, m')) :
    ∃ u, SameStacks m u ∧ m' = threadContextSwitch u m.core.curThread next := by
  unfold apDispatch at h
  cases hfirst : firstReady m turns m.core.readyList with
  | error e =>
      rw [hfirst] at h
      cases h
  | ok first =>
      rw [hfirst] at h
      cases first with
      | none => cases h
      | some new =>
          simp only [bind, Except.bind, pure, Except.pure, Except.ok.injEq, Prod.mk.injEq,
            Option.some.injEq] at h
          obtain ⟨rfl, rfl⟩ := h
          have hsame : ∀ x : ThreadState, ({ x with status := .running } : ThreadState).rsp = x.rsp ∧
              ({ x with status := .running } : ThreadState).stackBottom = x.stackBottom ∧
                ({ x with status := .running } : ThreadState).stackSize = x.stackSize :=
            fun _ => ⟨rfl, rfl, rfl⟩
          split
          · exact ⟨_, (SameStacks.setCore m _).trans ((SameStacks.setThread _ _ hsame).trans
              (.setCore _ _)), rfl⟩
          · exact ⟨_, (SameStacks.setCore m _).trans ((SameStacks.setThread _ _ hsame).trans
              (.setCore _ _)), rfl⟩

end Calls

end AosKernel.Smp
