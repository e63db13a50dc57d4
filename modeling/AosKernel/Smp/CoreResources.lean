import Mathlib.Data.List.Perm.Basic
import Mathlib.Logic.Function.Basic
import AosKernel.Lib.Trace
import AosKernel.Mm.Region

namespace AosKernel.Smp

open Verif Mm

def SMP_MAX_CORES : Nat := 256

inductive CoreStatus
  | ready
  | reserved
  | running
  deriving DecidableEq, Repr

-- A thread_state on a list of a core: its address and that of its stack.
structure ListedThread where
  addr : Nat
  stackBottom : Nat
  deriving DecidableEq, Repr

-- A core_state as smp_init, smp_reset_core and smp_shutdown_core use it; its
-- lists are lists in link order. `stackBase` is a history for the proofs: the
-- address that avmf_alloc returned for the stack of the core.
structure ApCore where
  self : Nat
  lapicId : Nat
  status : CoreStatus
  command : Nat
  idleThread : Nat
  stack : Nat
  readyList : List ListedThread
  finishedList : List ListedThread
  stackBase : Nat
  deriving DecidableEq, Repr

-- The local APICs of the machine. That of the boot processor is one of them.
structure Apics where
  ids : List Nat
  bspApicId : Nat
  bsp : Nat
  bsp_listed : ∀ i, ids[i]? = some bspApicId ↔ i = bsp

-- `mailbox` and `frees` are histories, latest first: the stack tops written
-- to 0x510, each with the stack of its core, and for each shutdown the
-- addresses passed to avmf_free and the allocations that the core owned.
structure Cores where
  cores : Nat → Option ApCore
  bspCoreIdx : Nat
  mailbox : List (Nat × Nat)
  frees : List (List Nat × List Nat)

def Cores.set (s : Cores) (i : Nat) (c : Option ApCore) : Cores :=
  { s with cores := Function.update s.cores i c }

-- What the three calls of avmf_alloc for a core return; NULL is 0.
structure CoreGrant where
  stack : Nat
  state : Nat
  idle : Nat

def coreStackSize : Nat := PAGE_SIZE * 4

-- A turn of the loop of smp_init. A failed allocation leaves the core out.
def initCore (apics : Apics) (grant : Nat → CoreGrant) (s : Cores) (entry : Nat × Nat) : Cores :=
  let (id, i) := entry
  if (s.cores i).isSome then s
  else if id = apics.bspApicId then { s with bspCoreIdx := i }
  else
    let g := grant i
    if g.stack = 0 ∨ g.state = 0 ∨ g.idle = 0 then s
    else
      let top := g.stack + 0x4000
      { s.set i (some ⟨g.state, id, .ready, 0, g.idle, top, [], [], g.stack⟩) with
        mailbox := (top, g.stack) :: s.mailbox }

-- The state of the boot processor, which gets no stack.
def initBsp (apics : Apics) (g : CoreGrant) (s : Cores) : Cores :=
  if g.state = 0 then s
  else s.set s.bspCoreIdx
    (some ⟨g.state, apics.bspApicId, .running, 0, g.idle, 0, [], [], 0⟩)

def smpInit (apics : Apics) (grant : Nat → CoreGrant) (bspGrant : CoreGrant) (s : Cores) : Cores :=
  initBsp apics bspGrant (apics.ids.zipIdx.foldl (initCore apics grant) s)

-- The checks at the head of smp_reset_core and smp_shutdown_core.
def Cores.target (s : Cores) (i : Nat) : Option ApCore :=
  if i ≥ SMP_MAX_CORES then none
  else if i = s.bspCoreIdx then none
  else s.cores i

def smpResetCore (i : Nat) (s : Cores) : Cores :=
  match s.target i with
  | none => s
  | some c =>
      { s.set i (some { c with status := .ready, command := 0 }) with
        mailbox := (c.stack + 16384, c.stackBase) :: s.mailbox }

-- An address is given to avmf_free unless it is NULL.
def checked (addr : Nat) : List Nat := if addr ≠ 0 then [addr] else []

def ListedThread.allocations (t : ListedThread) : List Nat := checked t.stackBottom ++ [t.addr]

-- The allocations of a core whose stack is at `stack`, in the order in which
-- smp_shutdown_core frees them.
def ApCore.allocations (c : ApCore) (stack : Nat) : List Nat :=
  c.readyList.flatMap ListedThread.allocations ++
    c.finishedList.flatMap ListedThread.allocations ++ checked c.idleThread ++
      (checked stack ++ [c.self])

def smpShutdownCore (i : Nat) (s : Cores) : Cores :=
  match s.target i with
  | none => s
  | some c =>
      { s.set i none with
        frees := (c.allocations c.stack, c.allocations c.stackBase) :: s.frees }

inductive CoreCall
  | init (grant : Nat → CoreGrant) (bspGrant : CoreGrant)
  | reset (i : Nat)
  | shutdown (i : Nat)
  | tasks (i : Nat) (ready finished : List ListedThread)

-- The calls, with every IPI answered in time; in between, the lists of a core
-- change as tasks come and go.
def Cores.apply (apics : Apics) (s : Cores) : CoreCall → Cores
  | .init grant bspGrant => smpInit apics grant bspGrant s
  | .reset i => smpResetCore i s
  | .shutdown i => smpShutdownCore i s
  | .tasks i ready finished =>
      s.set i ((s.cores i).map fun c => { c with readyList := ready, finishedList := finished })

def CoreStep (apics : Apics) (s : Cores) (call : CoreCall) (t : Cores) : Prop :=
  t = s.apply apics call

-- Each stack top lies in the stack of its core or one past its end, and each
-- shutdown frees exactly what the core owned.
structure ResourcesKept (s : Cores) : Prop where
  tops : ∀ m ∈ s.mailbox, m.2 ≤ m.1 ∧ m.1 ≤ m.2 + coreStackSize
  frees : ∀ f ∈ s.frees, f.1.Perm f.2

-- The call does not reset or shut down a core.
def LeavesCores (s : Cores) : CoreCall → Prop
  | .reset i | .shutdown i => s.target i = none
  | _ => True

-- A machine before smp_init.
def Cores.none : Cores := ⟨fun _ => .none, 0, [], []⟩

-- The stack field of an AP core is the top of its stack.
structure CoresInv (apics : Apics) (s : Cores) : Prop where
  stack : ∀ i c, s.cores i = some c → i ≠ apics.bsp → c.stack = c.stackBase + coreStackSize
  bsp : ∀ c, s.cores apics.bsp = some c → s.bspCoreIdx = apics.bsp

section Inv

variable {apics : Apics} {s t : Cores}

theorem Cores.none_inv : CoresInv apics .none := ⟨nofun, nofun⟩

theorem Cores.none_kept : ResourcesKept .none := ⟨nofun, nofun⟩

theorem CoresInv.target (h : CoresInv apics s) {i : Nat} {c : ApCore} (hc : s.target i = some c) :
    i ≠ apics.bsp ∧ s.cores i = some c ∧ c.stack = c.stackBase + coreStackSize := by
  unfold Cores.target at hc
  split at hc
  · cases hc
  · split at hc
    · cases hc
    · rename_i hne
      have hi : i ≠ apics.bsp := fun heq => hne (by rw [heq, h.bsp c (heq ▸ hc)])
      exact ⟨hi, hc, h.stack i c hc hi⟩

-- Replacing the state of an AP core.
theorem CoresInv.set (h : CoresInv apics s) {i : Nat} (hi : i ≠ apics.bsp) {o : Option ApCore}
    (ho : ∀ c, o = some c → c.stack = c.stackBase + coreStackSize) : CoresInv apics (s.set i o) := by
  refine ⟨fun j c hj hbsp => ?_, fun c hc => ?_⟩
  · by_cases hji : j = i
    · subst hji
      exact ho c (by simpa [Cores.set] using hj)
    · exact h.stack j c (by simpa [Cores.set, hji] using hj) hbsp
  · exact h.bsp c (by simpa [Cores.set, hi.symm] using hc)

theorem CoresInv.congr (h : CoresInv apics s) (hcores : t.cores = s.cores)
    (hbsp : t.bspCoreIdx = s.bspCoreIdx) : CoresInv apics t :=
  ⟨hcores ▸ h.stack, by rw [hcores, hbsp]; exact h.bsp⟩

theorem ResourcesKept.congr (h : ResourcesKept s) (hmail : t.mailbox = s.mailbox)
    (hfrees : t.frees = s.frees) : ResourcesKept t :=
  ⟨hmail ▸ h.tops, hfrees ▸ h.frees⟩

theorem ResourcesKept.post (h : ResourcesKept s) {m : Nat × Nat}
    (hm : m.2 ≤ m.1 ∧ m.1 ≤ m.2 + coreStackSize) (hmail : t.mailbox = m :: s.mailbox)
    (hfrees : t.frees = s.frees) : ResourcesKept t := by
  refine ⟨fun m' hm' => ?_, hfrees ▸ h.frees⟩
  rw [hmail, List.mem_cons] at hm'
  obtain rfl | hm' := hm'
  · exact hm
  · exact h.tops m' hm'

-- A turn of the loop, for the entry at index `i` of the list.
theorem CoresInv.initCore (h : CoresInv apics s) (hkept : ResourcesKept s)
    (grant : Nat → CoreGrant) {id i : Nat} (hid : apics.ids[i]? = some id) :
    CoresInv apics (initCore apics grant s (id, i)) ∧
      ResourcesKept (Smp.initCore apics grant s (id, i)) ∧
      (i = apics.bsp ∨ s.bspCoreIdx = apics.bsp →
        (Smp.initCore apics grant s (id, i)).bspCoreIdx = apics.bsp) := by
  simp only [Smp.initCore]
  split
  · rename_i hsome
    refine ⟨h, hkept, ?_⟩
    rintro (rfl | hbsp)
    · obtain ⟨c, hc⟩ := Option.isSome_iff_exists.mp hsome
      exact h.bsp c hc
    · exact hbsp
  split
  · rename_i hbspId
    have hi : i = apics.bsp := (apics.bsp_listed i).mp (hid.trans (congrArg some hbspId))
    exact ⟨⟨h.stack, fun c hc => hi⟩, hkept.congr rfl rfl, fun _ => hi⟩
  have hi : i ≠ apics.bsp := by
    rintro rfl
    have := (apics.bsp_listed apics.bsp).mpr rfl
    simp_all
  split
  · exact ⟨h, hkept, fun hor => hor.resolve_left hi⟩
  · refine ⟨(h.set hi ?_).congr rfl rfl, hkept.post ?_ rfl rfl, fun hor => hor.resolve_left hi⟩
    · rintro c ⟨⟩
      rfl
    · simp only [coreStackSize, PAGE_SIZE]
      omega

-- The loop, which meets the entry of the boot processor.
theorem CoresInv.initCores (h : CoresInv apics s) (hkept : ResourcesKept s)
    (grant : Nat → CoreGrant) (entries : List (Nat × Nat))
    (hentries : ∀ e ∈ entries, apics.ids[e.2]? = some e.1) :
    CoresInv apics (entries.foldl (Smp.initCore apics grant) s) ∧
      ResourcesKept (entries.foldl (Smp.initCore apics grant) s) ∧
      ((∃ e ∈ entries, e.2 = apics.bsp) ∨ s.bspCoreIdx = apics.bsp →
        (entries.foldl (Smp.initCore apics grant) s).bspCoreIdx = apics.bsp) := by
  induction entries generalizing s with
  | nil => exact ⟨h, hkept, fun hor => hor.resolve_left (by simp)⟩
  | cons e entries ih =>
      obtain ⟨hinv, hkept', hidx⟩ := h.initCore hkept grant (hentries e (by simp))
      obtain ⟨hinv, hkept', hidx'⟩ := ih hinv hkept' (fun e' he' => hentries e' (by simp [he']))
      refine ⟨hinv, hkept', fun hor => hidx' ?_⟩
      simp only [List.exists_mem_cons_iff] at hor
      obtain (he | he) | hbsp := hor
      · exact .inr (hidx (.inl he))
      · exact .inl he
      · exact .inr (hidx (.inr hbsp))

theorem CoresInv.smpInit (h : CoresInv apics s) (hkept : ResourcesKept s)
    (grant : Nat → CoreGrant) (g : CoreGrant) :
    CoresInv apics (smpInit apics grant g s) ∧ ResourcesKept (Smp.smpInit apics grant g s) := by
  obtain ⟨hinv, hkept, hidx⟩ := h.initCores hkept grant apics.ids.zipIdx
    (fun e he => List.mk_mem_zipIdx_iff_getElem?.mp he)
  have hbsp := hidx (.inl ⟨(apics.bspApicId, apics.bsp),
    List.mk_mem_zipIdx_iff_getElem?.mpr ((apics.bsp_listed _).mpr rfl), rfl⟩)
  rw [Smp.smpInit, initBsp]
  split
  · exact ⟨hinv, hkept⟩
  · refine ⟨⟨fun i c hc hi => ?_, fun c _ => hbsp⟩, hkept.congr rfl rfl⟩
    rw [hbsp] at hc
    exact hinv.stack i c (by simpa [Cores.set, hi] using hc) hi

theorem CoresInv.reset (h : CoresInv apics s) (i : Nat) : CoresInv apics (smpResetCore i s) := by
  rw [smpResetCore]
  split
  · exact h
  · rename_i c hc
    obtain ⟨hi, -, hstack⟩ := h.target hc
    refine (h.set hi ?_).congr rfl rfl
    rintro c' ⟨⟩
    exact hstack

theorem CoresInv.shutdown (h : CoresInv apics s) (i : Nat) :
    CoresInv apics (smpShutdownCore i s) := by
  rw [smpShutdownCore]
  split
  · exact h
  · rename_i c hc
    obtain ⟨hi, -, -⟩ := h.target hc
    exact (h.set hi (by simp)).congr rfl rfl

theorem CoresInv.tasks (h : CoresInv apics s) (i : Nat) (ready finished : List ListedThread) :
    CoresInv apics (s.apply apics (.tasks i ready finished)) := by
  refine ⟨fun j c hj hbsp => ?_, fun c hc => ?_⟩
  · by_cases hji : j = i
    · subst hji
      simp only [Cores.apply, Cores.set, Function.update_self, Option.map_eq_some_iff] at hj
      obtain ⟨c, hc, rfl⟩ := hj
      exact h.stack j c hc hbsp
    · exact h.stack j c (by simpa [Cores.apply, Cores.set, hji] using hj) hbsp
  · by_cases hbi : apics.bsp = i
    · subst hbi
      simp only [Cores.apply, Cores.set, Function.update_self, Option.map_eq_some_iff] at hc
      obtain ⟨c, hc, -⟩ := hc
      exact h.bsp c hc
    · exact h.bsp c (by simpa [Cores.apply, Cores.set, hbi] using hc)

theorem CoresInv.step (h : CoresInv apics s) (hkept : ResourcesKept s) {call : CoreCall}
    (hs : CoreStep apics s call t) : CoresInv apics t := by
  rw [CoreStep] at hs
  subst hs
  cases call with
  | init grant g => exact (h.smpInit hkept grant g).1
  | reset i => exact h.reset i
  | shutdown i => exact h.shutdown i
  | tasks i ready finished => exact h.tasks i ready finished

-- smp_reset_core adds the size of the stack to an address that is its top.
theorem CoresInv.reset_kept_iff (h : CoresInv apics s) (hkept : ResourcesKept s) (i : Nat) :
    ResourcesKept (smpResetCore i s) ↔ s.target i = none := by
  rw [smpResetCore]
  cases hc : s.target i with
  | none => exact iff_of_true hkept rfl
  | some c =>
      refine iff_of_false (fun hk => ?_) nofun
      obtain ⟨-, -, hstack⟩ := h.target hc
      have htop := (hk.tops _ (List.mem_cons_self ..)).2
      simp only [hstack, coreStackSize, PAGE_SIZE] at htop
      omega

-- The list freed and the list owned differ in the one address.
theorem ApCore.allocations_perm {c : ApCore} {a b : Nat} (ha : a ≠ 0)
    (hperm : (c.allocations a).Perm (c.allocations b)) : b = a := by
  rw [ApCore.allocations, ApCore.allocations, List.perm_append_left_iff,
    List.perm_append_right_iff, checked, if_pos ha, List.singleton_perm] at hperm
  by_cases hb : b = 0
  · simp [checked, hb] at hperm
  · simpa [checked, hb, eq_comm] using hperm

-- smp_shutdown_core frees the top of the stack.
theorem CoresInv.shutdown_kept_iff (h : CoresInv apics s) (hkept : ResourcesKept s) (i : Nat) :
    ResourcesKept (smpShutdownCore i s) ↔ s.target i = none := by
  rw [smpShutdownCore]
  cases hc : s.target i with
  | none => exact iff_of_true hkept rfl
  | some c =>
      refine iff_of_false (fun hk => ?_) nofun
      obtain ⟨-, -, hstack⟩ := h.target hc
      have hne : c.stack ≠ 0 := by
        simp only [hstack, coreStackSize, PAGE_SIZE]
        omega
      have heq := ApCore.allocations_perm hne (hk.frees _ (List.mem_cons_self ..))
      simp only [hstack, coreStackSize, PAGE_SIZE] at heq
      omega

theorem CoresInv.kept_iff (h : CoresInv apics s) (hkept : ResourcesKept s) {call : CoreCall}
    (hs : CoreStep apics s call t) : ResourcesKept t ↔ LeavesCores s call := by
  rw [CoreStep] at hs
  subst hs
  cases call with
  | init grant g => exact iff_of_true (h.smpInit hkept grant g).2 trivial
  | reset i => exact h.reset_kept_iff hkept i
  | shutdown i => exact h.shutdown_kept_iff hkept i
  | tasks i ready finished => exact iff_of_true (hkept.congr rfl rfl) trivial

end Inv

-- Stack tops and frees are right throughout a run of the calls exactly when
-- the run neither resets nor shuts down a core.
theorem resources_kept_iff (apics : Apics) {past : List (Cores × CoreCall)} {s : Cores}
    (h : Trace (CoreStep apics) .none past s) :
    Trace.Always ResourcesKept past s ↔ Trace.Admits LeavesCores past :=
  h.always_iff_admits Cores.none_inv Cores.none_kept
    (fun _ _ _ hI hP hs _ => CoresInv.step hI hP hs)
    (fun _ _ _ hI hP hs => CoresInv.kept_iff hI hP hs)

-- Two processors, the first of them the boot processor.
def twoApics : Apics where
  ids := [0, 1]
  bspApicId := 0
  bsp := 0
  bsp_listed := by
    rintro (_ | _ | i) <;> simp

def twoGrant : CoreGrant := ⟨0xFFFFA00000010000, 0xFFFFA00000020000, 0xFFFFA00000030000⟩

def twoStarted : Cores := smpInit twoApics (fun _ => twoGrant) twoGrant .none

-- smp_init, and a reset of the boot processor, which is refused.
def twoRun : List (Cores × CoreCall) :=
  [(.none, .init (fun _ => twoGrant) twoGrant), (twoStarted, .reset 0)]

theorem resources_kept_iff_init : Trace.Always ResourcesKept twoRun twoStarted := by
  have h : Trace (CoreStep twoApics) .none twoRun twoStarted :=
    (Trace.nil.snoc rfl).snoc rfl
  refine (resources_kept_iff twoApics h).mpr ?_
  simp only [twoRun, Trace.Admits, List.forall_mem_cons]
  exact ⟨trivial, rfl, fun _ hx => absurd hx List.not_mem_nil⟩

-- A core is started and shut down: the address freed is the one where the
-- allocation behind its stack starts.
theorem resources_kept_fails :
    ¬ ∀ (apics : Apics) (past : List (Cores × CoreCall)) (s : Cores),
      Trace (CoreStep apics) .none past s → Trace.Always ResourcesKept past s := by
  intro hall
  have h : Trace (CoreStep twoApics) .none _ _ :=
    .snoc (i := .shutdown 1) (.snoc (i := .init (fun _ => twoGrant) twoGrant) .nil rfl) rfl
  have hfrees := (hall _ _ _ h).2.frees
    ([0xFFFFA00000030000, 0xFFFFA00000014000, 0xFFFFA00000020000],
      [0xFFFFA00000030000, 0xFFFFA00000010000, 0xFFFFA00000020000]) (by decide)
  revert hfrees
  decide

end AosKernel.Smp
