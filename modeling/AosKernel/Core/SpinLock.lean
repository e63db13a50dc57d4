import Mathlib.Data.List.Nodup
import Mathlib.Logic.Function.Basic
import AosKernel.Lib.Trace

namespace AosKernel.Core

open Verif

abbrev Flags := BitVec 64

-- RFLAGS.IF
def interruptsOn (flags : Flags) : Bool := flags.getLsbD 9

def clearIf (flags : Flags) : Flags := flags &&& ~~~(1#64 <<< 9)

theorem interruptsOn_clearIf (flags : Flags) : interruptsOn (clearIf flags) = false := by
  simp [interruptsOn, clearIf]

-- Where code is in spin_lock_irqsave: past pushfq and pop, past cli, and in the
-- inner loop; and in spin_unlock_irqrestore: past __sync_lock_release.
inductive LockPhase (L : Type)
  | body
  | saved (lock : L) (flags : Flags)
  | spinning (lock : L) (flags : Flags)
  | waiting (lock : L) (flags : Flags)
  | released (flags : Flags)
  deriving DecidableEq

-- Code that runs on a core or that an interrupt has stopped there: the locks it
-- has taken, the last one first, each with the flags spin_lock_irqsave returned.
-- `outer` is a history, the flags from before the first of them.
structure Activity (L : Type) where
  phase : LockPhase L
  held : List (L × Flags)
  outer : Flags

structure CoreLocks (L : Type) where
  flags : Flags
  running : Activity L
  interrupted : List (Activity L × Flags)

structure LockState (L : Type) where
  word : L → Int
  cores : Nat → CoreLocks L

inductive LockAction (L : Type)
  | save (lock : L)
  | cli
  | testAndSet
  | read
  | release (lock : L) (flags : Flags)
  | popfq
  | setFlags (flags : Flags)
  | interrupt
  | iret

section Machine

variable {L : Type}

def CoreLocks.setPhase (k : CoreLocks L) (phase : LockPhase L) : CoreLocks L :=
  { k with running := { k.running with phase := phase } }

-- All locks that code on the core has taken.
def CoreLocks.taken (k : CoreLocks L) : List L :=
  (k.running.held ++ k.interrupted.flatMap fun a => a.1.held).map Prod.fst

-- The flags that spin_lock_irqsave is going to return or that
-- spin_unlock_irqrestore was given.
def LockPhase.flags? : LockPhase L → Option Flags
  | .body => none
  | .saved _ flags | .spinning _ flags | .waiting _ flags | .released flags => some flags

-- Past cli and before popfq.
def LockPhase.Masked : LockPhase L → Prop
  | .body | .saved _ _ => False
  | .spinning _ _ | .waiting _ _ | .released _ => True

def CoreLocks.WaitsFor (k : CoreLocks L) (lock : L) : Prop :=
  ∃ flags, k.running.phase = .spinning lock flags ∨ k.running.phase = .waiting lock flags

def LockState.setCore (s : LockState L) (c : Nat) (k : CoreLocks L) : LockState L :=
  { s with cores := Function.update s.cores c k }

@[simp] theorem setCore_word (s : LockState L) (c : Nat) (k : CoreLocks L) :
    (s.setCore c k).word = s.word := rfl

@[simp] theorem setCore_cores (s : LockState L) (c : Nat) (k : CoreLocks L) :
    (s.setCore c k).cores = Function.update s.cores c k := rfl

@[simp] theorem taken_setPhase (k : CoreLocks L) (phase : LockPhase L) :
    (k.setPhase phase).taken = k.taken := rfl

-- A lock word is set exactly when code has taken the lock, and at most one has.
structure Exclusive (s : LockState L) : Prop where
  word : ∀ l, s.word l ≠ 0 ↔ ∃ c, l ∈ (s.cores c).taken
  apart : ∀ l c c', l ∈ (s.cores c).taken → l ∈ (s.cores c').taken → c = c'
  nodup : ∀ c, (s.cores c).taken.Nodup

-- No lock is taken, and all code is outside spin_lock_irqsave.
structure Unlocked (s : LockState L) : Prop where
  word : ∀ l, s.word l = 0
  phase : ∀ c, (s.cores c).running.phase = .body
  held : ∀ c, (s.cores c).running.held = []
  interrupted : ∀ c, (s.cores c).interrupted = []

theorem Unlocked.exclusive {s : LockState L} (h : Unlocked s) : Exclusive s := by
  have htaken (c : Nat) : (s.cores c).taken = [] := by
    simp [CoreLocks.taken, h.held, h.interrupted]
  refine ⟨fun l => ?_, fun l c c' hmem => ?_, fun c => ?_⟩
  · simp [h.word, htaken]
  · simp [htaken] at hmem
  · simp [htaken]

-- The flags of a lock taken behind those of `held`.
structure NextFlags (outer : Flags) (held : List (L × Flags)) (flags : Flags) : Prop where
  first : held = [] → flags = outer
  inner : held ≠ [] → interruptsOn flags = false

def Stacked (outer : Flags) : List (L × Flags) → Prop
  | [] => True
  | x :: rest => NextFlags outer rest x.2 ∧ Stacked outer rest

-- Code with a lock runs with interrupts off, and was not stopped by one.
structure CoreLocks.Guarded (k : CoreLocks L) : Prop where
  flags : k.running.held ≠ [] ∨ k.running.phase.Masked → interruptsOn k.flags = false
  stacked : Stacked k.running.outer k.running.held
  next : ∀ flags ∈ k.running.phase.flags?, NextFlags k.running.outer k.running.held flags
  interrupted : ∀ a ∈ k.interrupted, a.1.held = [] ∧ ¬ a.1.phase.Masked ∧
    ∀ flags ∈ a.1.phase.flags?, flags = a.1.outer

theorem Unlocked.guarded {s : LockState L} (h : Unlocked s) (c : Nat) : (s.cores c).Guarded := by
  refine ⟨fun hbusy => ?_, ?_, fun flags hflags => ?_, fun a ha => ?_⟩
  · rw [h.held, h.phase] at hbusy
    exact (hbusy.resolve_left (not_not.mpr rfl)).elim
  · rw [h.held]
    trivial
  · rw [h.phase] at hflags
    cases hflags
  · rw [h.interrupted] at ha
    cases ha

variable [DecidableEq L]

-- One step of the core `c`. Code gives back the locks it has taken, and an
-- interrupt handler gives them back before it returns. The gates of the IDT are
-- interrupt gates.
def LockState.act (s : LockState L) (c : Nat) (action : LockAction L) : Option (LockState L) :=
  let k := s.cores c
  match action, k.running.phase with
  | .save lock, .body =>
      some (s.setCore c { k with running := { k.running with
        phase := .saved lock k.flags,
        outer := if k.running.held.isEmpty then k.flags else k.running.outer } })
  | .cli, .saved lock flags =>
      some (s.setCore c { k.setPhase (.spinning lock flags) with flags := clearIf k.flags })
  | .testAndSet, .spinning lock flags =>
      let t := { s with word := Function.update s.word lock 1 }
      if s.word lock ≠ 0 then some (t.setCore c (k.setPhase (.waiting lock flags)))
      else some (t.setCore c { k with running := { k.running with
        phase := .body, held := (lock, flags) :: k.running.held } })
  | .read, .waiting lock flags =>
      if s.word lock ≠ 0 then some s else some (s.setCore c (k.setPhase (.spinning lock flags)))
  | .release lock flags, .body =>
      if (lock, flags) ∈ k.running.held then
        some ({ s with word := Function.update s.word lock 0 }.setCore c { k with
          running := { k.running with
            phase := .released flags, held := k.running.held.erase (lock, flags) } })
      else none
  | .popfq, .released flags => some (s.setCore c { k.setPhase .body with flags := flags })
  | .setFlags flags, .body => some (s.setCore c { k with flags := flags })
  | .interrupt, _ =>
      if interruptsOn k.flags then
        some (s.setCore c {
          flags := clearIf k.flags, running := ⟨.body, [], k.flags⟩,
          interrupted := (k.running, k.flags) :: k.interrupted })
      else none
  | .iret, .body =>
      match k.running.held, k.interrupted with
      | [], (a, flags) :: rest => some (s.setCore c ⟨flags, a, rest⟩)
      | _, _ => none
  | _, _ => none

def LockStep (s : LockState L) (x : Nat × LockAction L) (t : LockState L) : Prop :=
  s.act x.1 x.2 = some t

-- What a step does to the locks: nothing, or one is taken or given back.
inductive LockEffect (s t : LockState L) (c : Nat) : Prop
  | same : (∀ l, t.word l ≠ 0 ↔ s.word l ≠ 0) → (t.cores c).taken = (s.cores c).taken →
      LockEffect s t c
  | took (lock : L) : s.word lock = 0 → t.word = Function.update s.word lock 1 →
      (t.cores c).taken = lock :: (s.cores c).taken → LockEffect s t c
  | gave (lock : L) : t.word = Function.update s.word lock 0 →
      (s.cores c).taken.Perm (lock :: (t.cores c).taken) → LockEffect s t c

variable {s t : LockState L} {c : Nat} {action : LockAction L}

theorem LockStep.others (h : LockStep s (c, action) t) {c' : Nat} (hne : c' ≠ c) :
    t.cores c' = s.cores c' := by
  simp only [LockStep, LockState.act] at h
  repeat' split at h
  all_goals cases h
  all_goals simp [Function.update_of_ne hne]

theorem LockStep.effect (h : LockStep s (c, action) t) : LockEffect s t c := by
  simp only [LockStep, LockState.act] at h
  split at h
  · cases h
    exact .same (fun _ => Iff.rfl) (by simp [CoreLocks.taken])
  · cases h
    exact .same (fun _ => Iff.rfl) (by simp [CoreLocks.taken, CoreLocks.setPhase])
  · split at h
    · rename_i hset
      cases h
      refine .same (fun l => ?_) (by simp)
      simp only [setCore_word, Function.update_apply]
      split
      · rename_i heq
        rw [heq]
        exact iff_of_true (by decide) hset
      · rfl
    · rename_i lock _ _ hfree
      cases h
      exact .took lock (not_not.mp hfree) rfl (by simp [CoreLocks.taken])
  · split at h
    · cases h
      exact .same (fun _ => Iff.rfl) rfl
    · cases h
      exact .same (fun _ => Iff.rfl) (by simp)
  · split at h
    · rename_i lock flags _ hmem
      cases h
      refine .gave lock rfl ?_
      simp only [setCore_cores, Function.update_self, CoreLocks.taken, List.map_append]
      have hperm := ((List.perm_cons_erase hmem).map Prod.fst).append_right
        (((s.cores c).interrupted.flatMap fun a => a.1.held).map Prod.fst)
      exact hperm
    · cases h
  · cases h
    exact .same (fun _ => Iff.rfl) (by simp [CoreLocks.taken, CoreLocks.setPhase])
  · cases h
    exact .same (fun _ => Iff.rfl) (by simp [CoreLocks.taken])
  · split at h
    · cases h
      exact .same (fun _ => Iff.rfl) (by simp [CoreLocks.taken])
    · cases h
  · split at h
    · rename_i hheld hinterrupted
      cases h
      exact .same (fun _ => Iff.rfl) (by simp [CoreLocks.taken, hheld, hinterrupted])
    · cases h
  · cases h

theorem Exclusive.step (hs : Exclusive s) (h : LockStep s (c, action) t) : Exclusive t := by
  have hother {c' : Nat} (hne : c' ≠ c) : (t.cores c').taken = (s.cores c').taken := by
    rw [h.others hne]
  cases h.effect with
  | same hword htaken =>
      have hall (c' : Nat) : (t.cores c').taken = (s.cores c').taken := by
        by_cases hc : c' = c
        · rw [hc, htaken]
        · exact hother hc
      refine ⟨fun l => ?_, fun l c₁ c₂ => ?_, fun c' => ?_⟩
      · simp only [hword, hs.word, hall]
      · rw [hall, hall]
        exact hs.apart l c₁ c₂
      · rw [hall]
        exact hs.nodup c'
  | took lock hfree hword htaken =>
      have hnone (c' : Nat) : lock ∉ (s.cores c').taken := fun hmem =>
        (hs.word lock).mpr ⟨c', hmem⟩ hfree
      have hmem {l : L} {c' : Nat} : l ∈ (t.cores c').taken ↔
          l ∈ (s.cores c').taken ∨ l = lock ∧ c' = c := by
        by_cases hc : c' = c
        · rw [hc, htaken, List.mem_cons, or_comm, and_iff_left rfl]
        · rw [hother hc, or_iff_left fun h => hc h.2]
      refine ⟨fun l => ?_, fun l c₁ c₂ h₁ h₂ => ?_, fun c' => ?_⟩
      · simp only [hmem, exists_or, exists_and_left, exists_eq, and_true]
        rw [hword, Function.update_apply, ← hs.word]
        split
        · rename_i heq
          simp [heq]
        · rename_i hne
          simp [hne]
      · rcases hmem.mp h₁ with h₁ | ⟨rfl, rfl⟩ <;> rcases hmem.mp h₂ with h₂ | ⟨h₂, rfl⟩
        · exact hs.apart l c₁ c₂ h₁ h₂
        · exact absurd (h₂ ▸ h₁) (hnone c₁)
        · exact absurd h₂ (hnone c₂)
        · rfl
      · by_cases hc : c' = c
        · rw [hc, htaken, List.nodup_cons]
          exact ⟨hnone c, hs.nodup c⟩
        · rw [hother hc]
          exact hs.nodup c'
  | gave lock hword hperm =>
      obtain ⟨hgone, hnodup⟩ := List.nodup_cons.mp (hperm.nodup_iff.mp (hs.nodup c))
      have hmem {l : L} {c' : Nat} : l ∈ (t.cores c').taken ↔ l ∈ (s.cores c').taken ∧ l ≠ lock := by
        by_cases hc : c' = c
        · rw [hc, hperm.mem_iff, List.mem_cons, or_and_right, and_not_self_iff, false_or,
            iff_self_and]
          rintro hl rfl
          exact hgone hl
        · rw [hother hc, iff_self_and]
          rintro hl rfl
          exact hc (hs.apart l c' c hl (hperm.mem_iff.mpr List.mem_cons_self))
      refine ⟨fun l => ?_, fun l c₁ c₂ h₁ h₂ => ?_, fun c' => ?_⟩
      · simp only [hmem, exists_and_right, ← hs.word]
        rw [hword, Function.update_apply]
        split
        · rename_i heq
          simp [heq]
        · rename_i hne
          simp [hne]
      · exact hs.apart l c₁ c₂ (hmem.mp h₁).1 (hmem.mp h₂).1
      · by_cases hc : c' = c
        · rw [hc]
          exact hnodup
        · rw [hother hc]
          exact hs.nodup c'

-- Locks are given back in the opposite order, each with its own flags, and
-- code that has one does not let interrupts in.
def WellNested (s : LockState L) (x : Nat × LockAction L) : Prop :=
  match x.2 with
  | .release lock flags => (s.cores x.1).running.held.head? = some (lock, flags)
  | .setFlags flags => (s.cores x.1).running.held = [] ∨ interruptsOn flags = false
  | _ => True

theorem LockStep.guarded (hk : (s.cores c).Guarded) (hnested : WellNested s (c, action))
    (h : LockStep s (c, action) t) : (t.cores c).Guarded := by
  obtain ⟨hflags, hstacked, hnext, hinterrupted⟩ := hk
  simp only [LockStep, LockState.act] at h
  split at h
  · rename_i lock hphase
    cases h
    simp only [setCore_cores, Function.update_self]
    refine ⟨fun hheld => hflags (hheld.imp id nofun), ?_, fun flags hsaved => ?_, hinterrupted⟩
    · cases hheld : (s.cores c).running.held with
      | nil => trivial
      | cons x rest => simpa [hheld] using hstacked
    · cases hsaved
      refine ⟨fun hheld => ?_, fun hheld => hflags (.inl hheld)⟩
      exact (if_pos (List.isEmpty_iff.mpr hheld)).symm
  · rename_i lock flags hphase
    cases h
    simp only [setCore_cores, Function.update_self]
    exact ⟨fun _ => interruptsOn_clearIf _, hstacked,
      fun flags hsaved => hnext flags (by rw [hphase]; exact hsaved), hinterrupted⟩
  · rename_i lock flags hphase
    have hoff : interruptsOn (s.cores c).flags = false := hflags (.inr (by rw [hphase]; trivial))
    have hsaved := hnext flags (by rw [hphase]; rfl)
    split at h
    · cases h
      simp only [setCore_cores, Function.update_self]
      refine ⟨fun _ => hoff, hstacked, fun flags' hsaved' => ?_, hinterrupted⟩
      cases hsaved'
      exact hsaved
    · cases h
      simp only [setCore_cores, Function.update_self]
      exact ⟨fun _ => hoff, ⟨hsaved, hstacked⟩, nofun, hinterrupted⟩
  · rename_i lock flags hphase
    split at h
    · cases h
      exact ⟨hflags, hstacked, hnext, hinterrupted⟩
    · cases h
      simp only [setCore_cores, Function.update_self]
      exact ⟨fun _ => hflags (.inr (by rw [hphase]; trivial)), hstacked,
        fun flags hsaved => hnext flags (by rw [hphase]; exact hsaved), hinterrupted⟩
  · rename_i lock flags hphase
    split at h
    · cases h
      simp only [setCore_cores, Function.update_self]
      cases hheld : (s.cores c).running.held with
      | nil => simp [WellNested, hheld] at hnested
      | cons x rest =>
          obtain rfl : x = (lock, flags) := by simpa [WellNested, hheld] using hnested
          rw [hheld] at hstacked
          refine ⟨fun _ => hflags (.inl (by simp [hheld])), ?_, fun flags' hsaved => ?_, hinterrupted⟩
          · rw [List.erase_cons_head]
            exact hstacked.2
          · cases hsaved
            rw [List.erase_cons_head]
            exact hstacked.1
    · cases h
  · rename_i flags hphase
    have hsaved := hnext flags (by rw [hphase]; rfl)
    cases h
    simp only [setCore_cores, Function.update_self]
    exact ⟨fun hheld => hsaved.inner (hheld.resolve_right nofun), hstacked, nofun, hinterrupted⟩
  · rename_i flags hphase
    cases h
    simp only [setCore_cores, Function.update_self]
    refine ⟨fun hheld => ?_, hstacked, hnext, hinterrupted⟩
    rcases hheld with hheld | hmasked
    · exact hnested.resolve_left hheld
    · rw [hphase] at hmasked
      exact hmasked.elim
  · split at h
    · rename_i hon
      have hopen (hbusy : (s.cores c).running.held ≠ [] ∨ (s.cores c).running.phase.Masked) :
          False := by
        rw [hflags hbusy] at hon
        cases hon
      cases h
      simp only [setCore_cores, Function.update_self]
      refine ⟨fun _ => interruptsOn_clearIf _, trivial, nofun,
        List.forall_mem_cons.mpr ⟨⟨?_, fun hmasked => hopen (.inr hmasked), fun flags hsaved => ?_⟩,
          hinterrupted⟩⟩
      · exact not_not.mp fun hheld => hopen (.inl hheld)
      · exact (hnext flags hsaved).first (not_not.mp fun hheld => hopen (.inl hheld))
    · cases h
  · split at h
    · rename_i a flags rest _ hstack
      cases h
      simp only [setCore_cores, Function.update_self]
      rw [hstack] at hinterrupted
      obtain ⟨⟨hnone, hopen, hsaved⟩, hrest⟩ := List.forall_mem_cons.mp hinterrupted
      refine ⟨fun hbusy => ?_, ?_, fun flags' hflags' => ⟨fun _ => hsaved flags' hflags', ?_⟩, hrest⟩
      · rcases hbusy with hheld | hmasked
        · exact absurd hnone hheld
        · exact absurd hmasked hopen
      · rw [hnone]
        trivial
      · exact fun hheld => absurd hnone hheld
    · cases h
  · cases h

-- A core that waits for a lock its own code has taken goes on waiting.
structure SelfWaits (c : Nat) (lock : L) (s : LockState L) : Prop where
  exclusive : Exclusive s
  flags : interruptsOn (s.cores c).flags = false
  waits : (s.cores c).WaitsFor lock
  taken : lock ∈ (s.cores c).taken

theorem SelfWaits.step {lock : L} {x : Nat × LockAction L} (hs : SelfWaits c lock s)
    (h : LockStep s x t) : SelfWaits c lock t := by
  obtain ⟨c', action⟩ := x
  have hexclusive := hs.exclusive.step h
  by_cases hc : c = c'
  · subst hc
    have hset : s.word lock ≠ 0 := (hs.exclusive.word lock).mpr ⟨c, hs.taken⟩
    have hflags := hs.flags
    obtain ⟨flags, hphase | hphase⟩ := hs.waits
    · cases action <;> simp only [LockStep, LockState.act, hphase, hflags] at h
      case testAndSet =>
        rw [if_pos hset] at h
        cases h
        refine ⟨hexclusive, ?_, ⟨flags, .inr ?_⟩, ?_⟩ <;>
          simp only [setCore_cores, Function.update_self]
        · exact hflags
        · rfl
        · exact hs.taken
      all_goals cases h
    · cases action <;> simp only [LockStep, LockState.act, hphase, hflags] at h
      case read =>
        rw [if_pos hset] at h
        cases h
        exact hs
      all_goals cases h
  · have hcore := h.others hc
    exact ⟨hexclusive, hcore ▸ hs.flags, hcore ▸ hs.waits, hcore ▸ hs.taken⟩

instance (s : LockState L) (x : Nat × LockAction L) : Decidable (WellNested s x) := by
  unfold WellNested
  split <;> infer_instance

def LockState.tryAct (s : LockState L) (x : Nat × LockAction L) : Except Unit (LockState L) :=
  if WellNested s x then (s.act x.1 x.2).elim (.error ()) .ok else .error ()

theorem LockState.tryAct_step (s : LockState L) (x : Nat × LockAction L) (t : LockState L)
    (h : s.tryAct x = .ok t) : WellNested s x ∧ LockStep s x t := by
  unfold LockState.tryAct at h
  split at h
  · refine ⟨‹_›, ?_⟩
    cases hact : s.act x.1 x.2 with
    | none =>
        rw [hact] at h
        cases h
    | some u =>
        rw [hact] at h
        cases h
        exact hact
  · cases h

-- Two locks, none taken; every core lets interrupts in.
def openLocks : LockState Bool := ⟨fun _ => 0, fun _ => ⟨0x202, ⟨.body, [], 0⟩, []⟩⟩

theorem openLocks_unlocked : Unlocked openLocks :=
  ⟨fun _ => rfl, fun _ => rfl, fun _ => rfl, fun _ => rfl⟩

def leadsTo (calls : List (Nat × LockAction Bool)) (goal : LockState Bool → Bool) : Bool :=
  match calls.foldlM LockState.tryAct openLocks with
  | .ok t => goal t
  | .error _ => false

theorem run_of_leadsTo (calls : List (Nat × LockAction Bool)) (goal : LockState Bool → Bool)
    (h : leadsTo calls goal = true) : ∃ past t, Trace LockStep openLocks past t ∧
      Trace.Admits WellNested past ∧ goal t = true := by
  unfold leadsTo at h
  split at h
  · rename_i t ht
    obtain ⟨past, hpast, -⟩ := Trace.of_foldlM LockState.tryAct_step _ .nil ht
    obtain ⟨hsteps, hnested⟩ := hpast.and_admits
    exact ⟨_, t, hsteps, hnested, h⟩
  · cases h

variable {start : LockState L} {past : List (LockState L × Nat × LockAction L)}

theorem Unlocked.guarded_run (hstart : Unlocked start) (h : Trace LockStep start past s)
    (hnested : Trace.Admits WellNested past) : ∀ c, (s.cores c).Guarded := by
  refine h.invariant_of_admits (I := fun s => ∀ c, (s.cores c).Guarded) hstart.guarded
    (fun s x t hs hok hstep c => ?_) hnested
  by_cases hc : c = x.1
  · rw [hc]
    exact hstep.guarded (hs x.1) hok
  · rw [hstep.others hc]
    exact hs c

-- Mutual exclusion: all interleavings of the cores and their interrupts keep
-- each lock to one owner.
theorem spinLock_exclusive (hstart : Unlocked start) (h : Trace LockStep start past s) :
    Trace.Always Exclusive past s := by
  have hall : Trace.Admits (fun _ _ => True) past := fun _ _ => trivial
  exact h.always_of_admits hstart.exclusive (fun _ _ _ hs _ hstep => hs.step hstep)
    (fun _ hs => hs) hall

-- Core 1 waits for a lock that core 0 has taken.
theorem spinLock_exclusive_cores : ∃ past s, Trace LockStep openLocks past s ∧
    false ∈ (s.cores 0).taken ∧ (s.cores 1).running.phase = .waiting false 0x202 ∧
      Trace.Always Exclusive past s := by
  obtain ⟨_, _, hrun, -, hgoal⟩ := run_of_leadsTo
    [(0, .save false), (1, .save false), (0, .cli), (1, .cli), (0, .testAndSet),
      (1, .testAndSet)]
    (fun s => false ∈ (s.cores 0).taken ∧
      (s.cores 1).running.phase = .waiting false 0x202) (by decide)
  have hend := of_decide_eq_true hgoal
  exact ⟨_, _, hrun, hend.1, hend.2, spinLock_exclusive openLocks_unlocked hrun⟩

-- In well nested calls no code with a lock is interrupted, popfq lets interrupts
-- in again at the outermost lock at the earliest and then as they were, and a
-- handler waits for no lock of the code it has stopped.
theorem spinLock_masks_interrupts (hstart : Unlocked start) (h : Trace LockStep start past s)
    (hnested : Trace.Admits WellNested past) (c : Nat) :
    ((s.cores c).running.held ≠ [] → interruptsOn (s.cores c).flags = false) ∧
      (∀ a ∈ (s.cores c).interrupted, a.1.held = []) ∧
      (∀ flags, (s.cores c).running.phase = .released flags →
        if (s.cores c).running.held = [] then flags = (s.cores c).running.outer
        else interruptsOn flags = false) ∧
      ∀ lock ∈ (s.cores c).taken, ∃ flags, (lock, flags) ∈ (s.cores c).running.held := by
  have hguarded := hstart.guarded_run h hnested c
  refine ⟨fun hheld => hguarded.flags (.inl hheld), fun a ha => (hguarded.interrupted a ha).1,
    fun flags hphase => ?_, fun lock hlock => ?_⟩
  · have hsaved := hguarded.next flags (by rw [hphase]; rfl)
    split
    · exact hsaved.first ‹_›
    · exact hsaved.inner ‹_›
  · obtain ⟨⟨l, flags⟩, hmem, rfl⟩ := List.mem_map.mp hlock
    refine ⟨flags, (List.mem_append.mp hmem).resolve_right fun hstopped => ?_⟩
    obtain ⟨a, ha, hmem⟩ := List.mem_flatMap.mp hstopped
    rw [(hguarded.interrupted a ha).1] at hmem
    cases hmem

-- An interrupt comes between pushfq and cli, and its handler takes a lock.
theorem spinLock_masks_interrupts_handler : ∃ past s, Trace LockStep openLocks past s ∧
    true ∈ (s.cores 0).taken ∧ (s.cores 0).interrupted ≠ [] ∧
      ∀ a ∈ (s.cores 0).interrupted, a.1.held = [] := by
  obtain ⟨_, s, hrun, hnested, hgoal⟩ := run_of_leadsTo
    [(0, .save false), (0, .interrupt), (0, .save true), (0, .cli), (0, .testAndSet)]
    (fun s => true ∈ (s.cores 0).taken ∧ (s.cores 0).interrupted.isEmpty = false)
    (by decide)
  have hend := of_decide_eq_true hgoal
  refine ⟨_, _, hrun, hend.1, fun hnone => ?_,
    (spinLock_masks_interrupts openLocks_unlocked hrun hnested 0).2.1⟩
  rw [hnone] at hend
  cases hend.2

end Machine

end AosKernel.Core
